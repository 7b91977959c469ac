import TmakeProof.Codecs
import TmakeProof.ScriptSyntax

/-! # The cache file

`write-cache` writes the array `tmakecache` as a script, one `set` command a line, and
`load-cache` evaluates it in the next run.  What was written is what is loaded, whatever
the values are (`load_written`), so that a run is never told that its cache is out of date
or unreadable, and the number of updates is that of the runs that wrote it (`runs_stored`).
A file that breaks off, because a run was killed while it wrote it, is ignored or holds
nothing that was not in the cache (`load_torn`, `runs_trusted`).
-/
namespace Tmake.Makecache
open Codec ListSyntax ScriptSyntax

abbrev Text := List Char

/-! ## Arrays -/

/-- A Tcl array: each key once, in the order in which they were first set. -/
abbrev Vars := AList fun _ : Text => Text

def setEntry (k v : Text) : List (Sigma fun _ : Text => Text) → List (Sigma fun _ : Text => Text)
  | [] => [⟨k, v⟩]
  | x :: l => if x.1 = k then ⟨k, v⟩ :: l else x :: setEntry k v l

theorem keys_setEntry (k v : Text) (l : List (Sigma fun _ : Text => Text)) :
    (setEntry k v l).keys = if k ∈ l.keys then l.keys else l.keys ++ [k] := by
  induction l with
  | nil => rfl
  | cons x l ih =>
    by_cases hx : x.1 = k
    · simp [setEntry, hx]
    · by_cases hk : k ∈ l.keys
      · simp [setEntry, hx, ih, hk]
      · simp [setEntry, hx, ih, hk, Ne.symm hx]

theorem dlookup_setEntry (k v k' : Text) (l : List (Sigma fun _ : Text => Text)) :
    (setEntry k v l).dlookup k' = if k' = k then some v else l.dlookup k' := by
  induction l with
  | nil =>
    by_cases hk : k' = k
    · subst hk
      simp [setEntry]
    · simp [setEntry, hk]
  | cons x l ih =>
    obtain ⟨j, u⟩ := x
    by_cases hx : j = k
    · subst hx
      by_cases hk : k' = j
      · subst hk
        simp [setEntry]
      · simp [setEntry, hk]
    · by_cases hj : k' = j
      · subst hj
        simp [setEntry, hx]
      · simp [setEntry, hx, hj, ih]

/-- `set tmakecache(k) v`. -/
def Vars.put (a : Vars) (k v : Text) : Vars where
  entries := setEntry k v a.entries
  nodupKeys := by
    rw [List.NodupKeys, keys_setEntry]
    split_ifs with hk
    · exact a.nodupKeys
    · exact List.nodup_append_comm.mp (List.nodup_cons.mpr ⟨by simpa using hk, a.nodupKeys⟩)

@[simp] theorem Vars.lookup_put (a : Vars) (k v k' : Text) :
    (a.put k v).lookup k' = if k' = k then some v else a.lookup k' :=
  dlookup_setEntry k v k' a.entries

/-! ## Writing -/

def arrayName : Text := "tmakecache".toList

/-- `tmake(cacheversion)`. -/
def cacheversion : Text := ['4']

/-- An element of the array, as a variable. -/
def element (k : Text) : Text := arrayName ++ '(' :: (k ++ [')'])

def setCommand (k v : Text) : List Text := ["set".toList, element k, v]

/-- The lines of `.makecache`. -/
def fileText (a : Vars) : Text := linesText (a.entries.map fun x => setCommand x.1 x.2)

def versionKey : Text := "version".toList
def writecacheKey : Text := "writecache".toList
def updatecountKey : Text := "updatecount".toList
def cmdKey : Text := "cmd".toList

/-- A number that counts as true. -/
def isTrue (v : Text) : Bool := v ≠ ['0']

/-- The array as it is saved; `none` where `incr` finds no number. -/
def saved (a : Vars) : Option Vars := do
  let count ← readInt (← a.lookup updatecountKey)
  let b : Vars := (a.put versionKey cacheversion).erase writecacheKey
  return b.put updatecountKey (intText (count + 1))

/-- Whether `write-cache` writes.  Root does not create the file. -/
def writes (norun isroot : Bool) (a : Vars) (file : Option Text) : Bool :=
  ((a.lookup writecacheKey).map isTrue).getD false && !norun && !(isroot && file.isNone)

/-- `write-cache`: what `.makecache` holds afterwards. -/
def writeCache (norun isroot : Bool) (a : Vars) (file : Option Text) : Option Text :=
  if writes norun isroot a file then ((saved a).map fileText).or file else file

/-! ## Loading -/

/-- What the commands of a script that are not `set` for an element of the array do: whether a
variable exists, and what a command, or a script that substitutes, makes of the array; `none` if
it is an error. -/
structure Interp where
  defined : Text → Bool
  command : List Text → Vars → Option Vars
  script : Text → Vars → Option Vars

/-- The key of a variable that is an element of the array: what is behind the first parenthesis
and before the last one. -/
def elementKey (name : Text) : Option Text :=
  if (arrayName ++ ['(']).isPrefixOf name ∧ name.getLast? = some ')' then
    some ((name.drop (arrayName.length + 1)).dropLast)
  else none

/-- One command. -/
def Interp.eval (I : Interp) (a : Vars) (cmd : List Text) : Option Vars :=
  match cmd with
  | [set, name] =>
    if set = "set".toList then
      match elementKey name with
      | some k => if k ∈ a then some a else none
      | none => if I.defined name then some a else none
    else I.command cmd a
  | [set, name, v] =>
    if set = "set".toList then
      match elementKey name with
      | some k => some (a.put k v)
      | none => I.command cmd a
    else I.command cmd a
  | [set] => if set = "set".toList then none else I.command cmd a
  | _ => I.command cmd a

/-- `source`. -/
def Interp.source (I : Interp) (text : Text) (a : Vars) : Option Vars :=
  match commands text with
  | .ok cmds => cmds.foldlM I.eval a
  | .error .malformed => none
  | .error .substituted => I.script text a

/-- `tmake(emptycache)`. -/
def emptycache : Vars :=
  ⟨[("file", ""), ("cmd", ""), ("deps", ""), ("target", ""), ("headerscan", ""), ("warnings", ""),
    ("exec", ""), ("version", "0"), ("writecache", "0"), ("srchash", ""), ("dephash", ""),
    ("usehashes", "0"), ("updatecount", "0")].map fun x => ⟨x.1.toList, x.2.toList⟩,
    by rw [List.NodupKeys]; decide⟩

/-- The comparison of two versions, as numbers if they are. -/
def sameVersion (v w : Text) : Bool :=
  match readInt v, readInt w with
  | some m, some n => m = n
  | _, _ => v = w

/-- The cache to begin with when there is nothing to load. -/
def cleared (dirty : Bool) : Vars :=
  emptycache.put writecacheKey (if dirty then ['1'] else ['0'])

/-- `load-cache`. -/
def loadCache (I : Interp) (file : Option Text) : Vars :=
  match file with
  | none => cleared false
  | some text =>
    match I.source text emptycache with
    | none => cleared true
    | some a =>
      match a.lookup versionKey with
      | none => cleared true
      | some v => if sameVersion v cacheversion then a else cleared true

/-! ## What was written is loaded -/

section
variable (I : Interp) {a b : Vars} {k v : Text}

theorem elementKey_element (k : Text) : elementKey (element k) = some k := by
  have hstart : (arrayName ++ ['(']).isPrefixOf (element k) = true := by
    simp [element]
  have hlast : (element k).getLast? = some ')' := by
    rw [element, ← List.cons_append, ← List.append_assoc, List.getLast?_concat]
  have hdrop : (element k).drop (arrayName.length + 1) = k ++ [')'] := by
    simp [element]
  rw [elementKey, if_pos ⟨hstart, hlast⟩, hdrop, List.dropLast_concat]

theorem eval_setCommand (a : Vars) (k v : Text) :
    I.eval a (setCommand k v) = some (a.put k v) := by
  simp [setCommand, Interp.eval, elementKey_element]

/-- The elements that a list of entries sets, in this order. -/
def Vars.putAll (a : Vars) (l : List (Sigma fun _ : Text => Text)) : Vars :=
  l.foldl (fun a x => a.put x.1 x.2) a

theorem foldlM_setCommands (a : Vars) (l : List (Sigma fun _ : Text => Text)) :
    (l.map fun x => setCommand x.1 x.2).foldlM I.eval a = some (a.putAll l) := by
  induction l generalizing a with
  | nil => rfl
  | cons x l ih =>
    rw [List.map_cons, List.foldlM_cons, eval_setCommand]
    exact ih _

theorem Vars.lookup_putAll (a : Vars) {l : List (Sigma fun _ : Text => Text)} (h : l.NodupKeys)
    (k : Text) : (a.putAll l).lookup k = (l.dlookup k).or (a.lookup k) := by
  induction l generalizing a with
  | nil => rfl
  | cons x l ih =>
    obtain ⟨j, u⟩ := x
    rw [List.nodupKeys_cons] at h
    have hstep : Vars.putAll a (⟨j, u⟩ :: l) = (a.put j u).putAll l := rfl
    rw [hstep, ih _ h.2, Vars.lookup_put]
    by_cases hk : k = j
    · subst hk
      rw [List.dlookup_eq_none.mpr h.1, List.dlookup_cons_eq]
      simp
    · rw [List.dlookup_cons_ne _ _ hk, if_neg hk]

theorem source_fileText (a b : Vars) :
    I.source (fileText b) a = some (a.putAll b.entries) := by
  have hlines : ∀ ws ∈ b.entries.map (fun x => setCommand x.1 x.2), ws ≠ [] := by
    intro ws hws
    obtain ⟨x, -, rfl⟩ := List.mem_map.mp hws
    exact List.cons_ne_nil _ _
  rw [Interp.source, fileText, commands_linesText hlines]
  exact foldlM_setCommands I a b.entries

/-- The array behind a file that was written: its entries, and those of the empty cache. -/
theorem loadCache_fileText (hv : b.lookup versionKey = some cacheversion) (k : Text) :
    (loadCache I (some (fileText b))).lookup k = (b.lookup k).or (emptycache.lookup k) := by
  have hlookup := fun k => Vars.lookup_putAll emptycache b.nodupKeys k
  have hversion : (emptycache.putAll b.entries).lookup versionKey = some cacheversion := by
    rw [hlookup, show b.entries.dlookup versionKey = some cacheversion from hv]
    rfl
  have hsame : sameVersion cacheversion cacheversion = true := by decide
  simp only [loadCache, source_fileText, hversion, hsame, if_true]
  exact hlookup k

/-! ## A file that breaks off -/

/-- Nothing that is read of a line that breaks off sets anything but what the line sets. -/
theorem foldlM_torn (hs : ∀ w a, w <+: "set".toList → w ≠ [] → w ≠ "set".toList →
    I.command [w] a = none) {cmds : List (List Text)} {l : List (Sigma fun _ : Text => Text)}
    {before : List Text} {e w : Text} (hbefore : before ++ [e] <+: setCommand k v)
    (hw : Torn e w) (hcmds : cmds = l.map fun x => setCommand x.1 x.2) (a : Vars) :
    (cmds ++ [before ++ [w]]).foldlM I.eval a = none ∨
    (cmds ++ [before ++ [w]]).foldlM I.eval a = some (a.putAll l) ∨
    Torn v w ∧ (cmds ++ [before ++ [w]]).foldlM I.eval a = some ((a.putAll l).put k w) := by
  have hfold : (cmds ++ [before ++ [w]]).foldlM I.eval a = I.eval (a.putAll l) (before ++ [w]) := by
    rw [hcmds, List.foldlM_append, foldlM_setCommands]
    simp
  rw [hfold]
  generalize a.putAll l = a
  rcases before with _ | ⟨set, _ | ⟨name, _ | ⟨v', before⟩⟩⟩
  · obtain ⟨rfl, -⟩ := List.cons_prefix_cons.mp hbefore
    refine .inl ?_
    by_cases hset : w = "set".toList
    · simp [Interp.eval, hset]
    · have hne : w ≠ [] := fun hnil => absurd (hw.nil hnil) (by decide)
      have hcommand := hs w a hw.beginning hne hset
      rw [List.nil_append, Interp.eval, if_neg hset, hcommand]
  · obtain ⟨rfl, -⟩ := List.cons_prefix_cons.mp hbefore
    simp only [Interp.eval, List.singleton_append, if_true]
    split
    · split_ifs
      · exact .inr (.inl rfl)
      · exact .inl rfl
    · split_ifs
      · exact .inr (.inl rfl)
      · exact .inl rfl
  · simp only [setCommand, List.cons_append, List.nil_append, List.cons_prefix_cons,
      List.nil_prefix, and_true] at hbefore
    obtain ⟨rfl, rfl, rfl⟩ := hbefore
    exact .inr (.inr ⟨hw, eval_setCommand I a k w⟩)
  · have hlength := hbefore.length_le
    simp only [setCommand, List.cons_append, List.length_cons, List.length_append,
      List.length_nil] at hlength
    omega

theorem element_plain (h : k ∈ emptycache) : (element k).all isPlain = true := by
  have hkeys : emptycache.keys.all (fun k => (element k).all isPlain) = true := by decide
  exact List.all_eq_true.mp hkeys k h

theorem quotingType_set : quotingType "set".toList = .simple :=
  quotingType_plain (by decide) (by decide)

theorem quotingType_element (h : k ∈ emptycache) : quotingType (element k) = .simple :=
  quotingType_plain (List.append_ne_nil_of_right_ne_nil _ (List.cons_ne_nil _ _)) (element_plain h)

theorem quotingType_setCommand (hk : k ∈ emptycache) (hv : quotingType v ≠ .quote) :
    ∀ e ∈ setCommand k v, quotingType e ≠ .quote := by
  rw [setCommand, List.forall_mem_cons, List.forall_mem_cons, List.forall_mem_singleton]
  refine ⟨?_, ?_, hv⟩
  · rw [quotingType_set]
    nofun
  · rw [quotingType_element hk]
    nofun

/-- An element is as it was saved, or as it is in the empty cache, or what is left of a value. -/
def Trusted (b : Vars) (k : Text) (a : Vars) : Prop :=
  a.lookup k = b.lookup k ∨ a.lookup k = emptycache.lookup k ∨
    ∃ v w, b.lookup k = some v ∧ Torn v w ∧ a.lookup k = some w

theorem putAll_trusted {l : List (Sigma fun _ : Text => Text)} (hl : l <+: b.entries) (k : Text) :
    Trusted b k (emptycache.putAll l) := by
  obtain ⟨r, hr⟩ := hl
  have hnodup : l.NodupKeys := by
    have := b.nodupKeys
    rw [← hr, List.NodupKeys, List.keys_append] at this
    exact (List.nodup_append.mp this).1
  have hlookup : b.lookup k = (l.dlookup k).or (r.dlookup k) := by
    rw [AList.lookup, ← hr, List.dlookup_append]
  rw [Trusted, Vars.lookup_putAll emptycache hnodup, hlookup]
  cases l.dlookup k with
  | none => exact .inr (.inl rfl)
  | some v => exact .inl rfl

theorem loadCache_trusted {text : Text} (h : I.source text emptycache = none ∨
    ∃ a, I.source text emptycache = some a ∧ ∀ k, Trusted b k a) :
    loadCache I (some text) = cleared true ∨ ∀ k, Trusted b k (loadCache I (some text)) := by
  rcases h with h | ⟨a, h, ha⟩
  · exact .inl (by rw [loadCache, h])
  · rw [loadCache, h]
    dsimp only
    split
    · exact .inl rfl
    · split_ifs
      · exact .inr ha
      · exact .inl rfl

/-- **A file that breaks off is ignored, or holds nothing that was not in the cache**, up to what
is left of its last value. -/
theorem load_torn (hs : ∀ w a, w <+: "set".toList → w ≠ [] → w ≠ "set".toList →
    I.command [w] a = none) (hkeys : ∀ k ∈ b, k ∈ emptycache)
    (hb : ∀ k v, b.lookup k = some v → quotingType v ≠ .quote) {text : Text}
    (htext : text <+: fileText b) :
    loadCache I (some text) = cleared true ∨ ∀ k, Trusted b k (loadCache I (some text)) := by
  apply loadCache_trusted
  obtain ⟨before, part, rfl, hpart⟩ := prefix_linesText htext
  rcases hpart with ⟨rfl, rfl⟩ | ⟨ws, hbefore, hpart⟩
  · rw [List.append_nil]
    exact .inr ⟨_, source_fileText I emptycache b, fun k => putAll_trusted List.prefix_rfl k⟩
  obtain ⟨l', hl', hmap⟩ := List.prefix_map_iff.mp hbefore
  obtain ⟨l, l₂, rfl, rfl, hlast⟩ := List.map_eq_append_iff.mp hmap.symm
  obtain ⟨x, hx, rfl⟩ := List.map_eq_singleton_iff.mp hlast
  subst hx
  obtain ⟨k, v⟩ := x
  have hlookup : b.lookup k = some v :=
    AList.mem_lookup_iff.mpr (hl'.subset (List.mem_append_right l List.mem_cons_self))
  have hl : l <+: b.entries := (List.prefix_append l _).trans hl'
  -- the line begins with the word `set`
  have hcommands : commands (linesText (l.map fun x => setCommand x.1 x.2) ++ part) =
      ((l.map fun x => setCommand x.1 x.2) ++ ·) <$> commands part := by
    refine commands_append ?_ ?_
    · intro ws hws
      obtain ⟨x, -, rfl⟩ := List.mem_map.mp hws
      exact List.cons_ne_nil _ _
    · rcases List.prefix_cons_iff.mp (show part <+: 's' :: _ from hpart) with rfl | ⟨t, rfl, -⟩
      · nofun
      · exact fun h => absurd (Option.some.inj h) (by decide)
  have hk : k ∈ emptycache := hkeys k (AList.lookup_isSome.mp (Option.isSome_of_mem hlookup))
  have hquote := quotingType_setCommand hk (hb k v hlookup)
  rw [Interp.source, hcommands]
  rcases commands_torn hquote hpart with h | h | ⟨before, e, w, hbefore, hw, h⟩
  · rw [h]
    refine .inr ⟨_, ?_, fun k => putAll_trusted hl k⟩
    simpa using foldlM_setCommands I emptycache l
  · rw [h]
    exact .inl rfl
  · rw [h]
    rcases foldlM_torn I hs hbefore hw rfl emptycache (l := l) with h | h | ⟨htorn, h⟩
    · exact .inl h
    · exact .inr ⟨_, h, fun k => putAll_trusted hl k⟩
    · refine .inr ⟨_, h, fun k' => ?_⟩
      by_cases hkk : k' = k
      · subst hkk
        exact .inr (.inr ⟨v, w, hlookup, htorn, by rw [Vars.lookup_put, if_pos rfl]⟩)
      · have := putAll_trusted hl k'
        rwa [Trusted, Vars.lookup_put, if_neg hkk]

end

/-! ## Runs -/

/-- What stands under a key after the array has been saved and loaded. -/
def reloaded (a : Vars) (n : Int) (k : Text) : Option Text :=
  if k = updatecountKey then some (intText (n + 1))
  else if k = writecacheKey then emptycache.lookup k
  else if k = versionKey then some cacheversion
  else (a.lookup k).or (emptycache.lookup k)

/-- The number of updates of an array. -/
def updatecount (a : Vars) : Option Int := a.lookup updatecountKey >>= readInt

theorem saved_of_updatecount {n : Int} (h : updatecount a = some n) : ∃ b, saved a = some b ∧
    ∀ k, b.lookup k = if k = updatecountKey then some (intText (n + 1))
      else if k = writecacheKey then none
      else if k = versionKey then some cacheversion else a.lookup k := by
  obtain ⟨t, ht, hn⟩ := Option.bind_eq_some_iff.mp h
  refine ⟨_, by simp only [saved, ht, hn, Option.bind_eq_bind, Option.bind_some]; rfl, fun k => ?_⟩
  rw [Vars.lookup_put]
  by_cases hcount : k = updatecountKey
  · rw [if_pos hcount, if_pos hcount]
  rw [if_neg hcount, if_neg hcount]
  by_cases hwrite : k = writecacheKey
  · subst hwrite
    rw [AList.lookup_erase, if_pos rfl]
  · rw [AList.lookup_erase_ne hwrite, if_neg hwrite, Vars.lookup_put]

section
variable (I : Interp) {a : Vars} {file : Option Text} {norun isroot : Bool}

theorem writeCache_of_writes (hw : writes norun isroot a file = true) {b : Vars}
    (hb : saved a = some b) : writeCache norun isroot a file = some (fileText b) := by
  rw [writeCache, if_pos hw, hb]
  rfl

theorem writeCache_of_not (hw : ¬writes norun isroot a file = true) :
    writeCache norun isroot a file = file := if_neg hw

/-- **What was written is loaded**, whatever the values are. -/
theorem load_written (hw : writes norun isroot a file = true) {n : Int}
    (hn : updatecount a = some n) (k : Text) :
    (loadCache I (writeCache norun isroot a file)).lookup k = reloaded a n k := by
  obtain ⟨b, hb, hlookup⟩ := saved_of_updatecount hn
  have hversion : b.lookup versionKey = some cacheversion := by
    rw [hlookup, if_neg (by decide), if_neg (by decide), if_pos rfl]
  rw [writeCache_of_writes hw hb, loadCache_fileText I hversion, hlookup, reloaded]
  split_ifs <;> rfl

end

/-! ## Histories of runs -/

/-- A run, as far as the cache file goes: what it makes of the array that it has loaded, and, if it
is killed while it writes the file, how many characters it gets to. -/
structure Session where
  work : Vars → Vars
  norun : Bool := false
  isroot : Bool := false
  killed : Option Nat := none

/-- `.makecache`, and the arrays that have been saved to it, newest first. -/
structure Log where
  file : Option Text := none
  saves : List Vars := []

/-- A run loads the file, works, and writes the file. -/
def Log.next (I : Interp) (s : Log) (r : Session) : Log :=
  let a := r.work (loadCache I s.file)
  if writes r.norun r.isroot a s.file then
    match saved a with
    | some b =>
      let text := fileText b
      { file := some (match r.killed with | some n => text.take n | none => text)
        saves := b :: s.saves }
    | none => s
  else s

def Log.run (I : Interp) (rs : List Session) : Log := rs.foldl (Log.next I) {}

/-- Nothing but `write-cache` counts the updates. -/
def Session.KeepsCount (r : Session) : Prop := ∀ a, updatecount (r.work a) = updatecount a

section
variable (I : Interp) {s : Log} {r : Session}

/-- The next run finds what the last run that wrote has saved. -/
structure Log.Stored (s : Log) : Prop where
  start : s.saves = [] → s.file = none
  content : ∀ b, s.saves.head? = some b → ∀ k,
    (loadCache I s.file).lookup k = (b.lookup k).or (emptycache.lookup k)
  count : updatecount (loadCache I s.file) = some s.saves.length
  clean : (loadCache I s.file).lookup writecacheKey = some ['0']

theorem readInt_natText_succ (n : Nat) : readInt (intText (n + 1 : Int)) = some ((n + 1 : Nat) : Int) :=
  int.decode_encode ((n + 1 : Nat) : Int)

theorem Log.Stored.next (h : s.Stored I) (hr : r.KeepsCount) (hkilled : r.killed = none) :
    (s.next I r).Stored I := by
  have hcount : updatecount (r.work (loadCache I s.file)) = some s.saves.length :=
    (hr _).trans h.count
  obtain ⟨b, hb, hlookup⟩ := saved_of_updatecount hcount
  by_cases hw : writes r.norun r.isroot (r.work (loadCache I s.file)) s.file = true
  · have hnext : s.next I r = { file := some (fileText b), saves := b :: s.saves } := by
      simp only [Log.next, if_pos hw, hb, hkilled]
    have hload := load_written I hw hcount
    rw [writeCache_of_writes hw hb] at hload
    have hversion : b.lookup versionKey = some cacheversion := by
      rw [hlookup, if_neg (by decide), if_neg (by decide), if_pos rfl]
    rw [hnext]
    refine ⟨nofun, fun b' hb' k => ?_, ?_, ?_⟩
    · obtain rfl := Option.some.inj hb'
      exact loadCache_fileText I hversion k
    · rw [updatecount, hload, reloaded, if_pos rfl]
      exact readInt_natText_succ s.saves.length
    · rw [hload, reloaded, if_neg (by decide), if_pos rfl]
      rfl
  · have hnext : s.next I r = s := by
      simp only [Log.next, if_neg hw]
    rwa [hnext]

/-- **Every run finds what was saved**: along every history of runs that end, whatever they make of
the array, no run is told that its cache is out of date or unreadable, and the number of updates is
that of the runs that wrote the cache. -/
theorem runs_stored (rs : List Session) (hr : ∀ r ∈ rs, r.KeepsCount ∧ r.killed = none) :
    (Log.run I rs).Stored I := by
  have hrun : ∀ s : Log, s.Stored I → (rs.foldl (Log.next I) s).Stored I := by
    induction rs with
    | nil => exact fun s hs => hs
    | cons r rs ih =>
      rw [List.forall_mem_cons] at hr
      exact fun s hs => ih hr.2 _ (hs.next I hr.1.1 hr.1.2)
  exact hrun {} ⟨fun _ => rfl, nofun, rfl, rfl⟩

end

/-- An interpreter that knows no commands but `set`. -/
def setOnly : Interp where
  defined _ := false
  command _ _ := none
  script _ _ := none

/-- A run that builds a target and saves its command. -/
def compiled : Session where
  work a := (a.put cmdKey "main.o \x7b\x7bcc -c \"main.c\"\x7d\x7d".toList).put writecacheKey ['1']

/-- Two runs that end. -/
theorem runs_stored_compiled : (Log.run setOnly [compiled, compiled]).Stored setOnly := by
  refine runs_stored setOnly _ fun r hr => ?_
  obtain rfl : r = compiled := by simpa using hr
  refine ⟨fun a => ?_, rfl⟩
  have hlookup : (compiled.work a).lookup updatecountKey = a.lookup updatecountKey := by
    simp only [compiled, Vars.lookup_put]
    rw [if_neg (by decide), if_neg (by decide)]
  rw [updatecount, hlookup, updatecount]

/-! ## Runs that are killed -/

/-- A value that can be told from what is left of it: in braces, or a single character.  The number
of updates, which no run depends on, at least stays a number. -/
structure Sturdy (k v : Text) : Prop where
  count : k = updatecountKey → v ≠ [] ∧ v.all Char.isDigit = true
  value : k ≠ updatecountKey → quotingType v = .brace ∨ v.length = 1 ∧ v.all isPlain = true

/-- An array of which nothing is mistaken when its file breaks off. -/
structure Vars.Sound (a : Vars) : Prop where
  keys : ∀ k ∈ a, k ∈ emptycache
  sturdy : ∀ k v, a.lookup k = some v → Sturdy k v

section
variable (I : Interp) {k v w : Text} {a b : Vars}

theorem isPlain_of_isDigit {c : Char} (h : c.isDigit = true) : isPlain c = true := by
  have hne (d : Char) (hd : d.isDigit = false) : c ≠ d := fun hc => by
    rw [hc, hd] at h
    cases h
  simp [isPlain, listSpecial, isSpace, hne]

theorem Sturdy.quotingType (h : Sturdy k v) : quotingType v ≠ .quote := by
  have hplain (hne : v ≠ []) (hall : v.all isPlain = true) : ListSyntax.quotingType v ≠ .quote := by
    rw [quotingType_plain hne hall]
    nofun
  by_cases hk : k = updatecountKey
  · obtain ⟨hne, hdigits⟩ := h.count hk
    exact hplain hne (List.all_eq_true.mpr fun c hc =>
      isPlain_of_isDigit (List.all_eq_true.mp hdigits c hc))
  · rcases h.value hk with hbrace | ⟨hlength, hall⟩
    · rw [hbrace]
      nofun
    · exact hplain (List.ne_nil_of_length_pos (by omega)) hall

/-- What is left of a sturdy value is the value, unless it is the number of updates. -/
theorem Sturdy.eq_of_torn (h : Sturdy k v) (hw : Torn v w) (hk : k ≠ updatecountKey) : w = v := by
  rcases h.value hk with hbrace | ⟨hlength, -⟩
  · exact hw.brace hbrace
  · refine hw.beginning.eq_of_length (Nat.le_antisymm hw.beginning.length_le ?_)
    have hne : w ≠ [] := fun hnil => by simp [hw.nil hnil] at hlength
    have := List.length_pos_of_ne_nil hne
    omega

theorem Sturdy.torn (h : Sturdy k v) (hw : Torn v w) : Sturdy k w where
  count hk := by
    obtain ⟨hne, hdigits⟩ := h.count hk
    exact ⟨fun hnil => hne (hw.nil hnil), List.all_eq_true.mpr fun c hc =>
      List.all_eq_true.mp hdigits c (hw.beginning.subset hc)⟩
  value hk := by
    rw [h.eq_of_torn hw hk]
    exact h.value hk

theorem emptycache_sturdy (h : emptycache.lookup k = some v) : Sturdy k v := by
  have hall : emptycache.entries.all (fun x => x.2 = [] ∧ x.1 ≠ updatecountKey ∨ x.2 = ['0']) =
      true := by decide
  have := List.all_eq_true.mp hall ⟨k, v⟩ (AList.mem_lookup_iff.mp h)
  rcases of_decide_eq_true this with ⟨rfl, hk⟩ | rfl
  · exact ⟨fun hk' => absurd hk' hk, fun _ => .inl rfl⟩
  · exact ⟨fun _ => ⟨by decide, by decide⟩, fun _ => .inr ⟨rfl, by decide⟩⟩

theorem Vars.Sound.put (h : a.Sound) (hk : k ∈ emptycache) (hv : Sturdy k v) : (a.put k v).Sound where
  keys j hj := by
    by_cases hjk : j = k
    · exact hjk ▸ hk
    · rw [← AList.lookup_isSome, Vars.lookup_put, if_neg hjk] at hj
      exact h.keys j (AList.lookup_isSome.mp hj)
  sturdy j u hu := by
    rw [Vars.lookup_put] at hu
    split_ifs at hu with hjk
    · obtain rfl := Option.some.inj hu
      exact hjk ▸ hv
    · exact h.sturdy j u hu

theorem Vars.Sound.erase (h : a.Sound) (k : Text) : Vars.Sound (AList.erase k a) where
  keys j hj := h.keys j (AList.mem_erase.mp hj).2
  sturdy j u hu := by
    by_cases hjk : j = k
    · subst hjk
      rw [AList.lookup_erase] at hu
      cases hu
    · rw [AList.lookup_erase_ne hjk] at hu
      exact h.sturdy j u hu

theorem emptycache_sound : emptycache.Sound := ⟨fun _ h => h, fun _ _ => emptycache_sturdy⟩

theorem sturdy_single {c : Char} (hc : c.isDigit = true) : Sturdy k [c] :=
  ⟨fun _ => ⟨List.cons_ne_nil _ _, by simpa using hc⟩,
    fun _ => .inr ⟨rfl, by simpa using isPlain_of_isDigit hc⟩⟩

theorem cleared_sound (dirty : Bool) : (cleared dirty).Sound := by
  refine emptycache_sound.put (AList.lookup_isSome.mp rfl) ?_
  cases dirty
  · exact sturdy_single rfl
  · exact sturdy_single rfl

theorem lookup_cleared_false (k : Text) : (cleared false).lookup k = emptycache.lookup k := by
  have hput : cleared false = emptycache.put writecacheKey ['0'] := rfl
  rw [hput, Vars.lookup_put]
  by_cases hk : k = writecacheKey
  · rw [if_pos hk, hk]
    rfl
  · rw [if_neg hk]

theorem Vars.Sound.saved (h : a.Sound) (hb : saved a = some b) : b.Sound := by
  obtain ⟨t, ht, hsaved⟩ := Option.bind_eq_some_iff.mp hb
  obtain ⟨n, hn, hsaved⟩ := Option.bind_eq_some_iff.mp hsaved
  obtain rfl := Option.some.inj hsaved
  refine ((h.put (AList.lookup_isSome.mp rfl) (sturdy_single rfl)).erase _).put
    (AList.lookup_isSome.mp rfl) ⟨fun _ => ?_, fun hk => absurd rfl hk⟩
  obtain ⟨hne, hdigits⟩ := (h.sturdy _ _ ht).count rfl
  rw [readInt_digits hdigits, readNat, if_pos ⟨hne, hdigits⟩] at hn
  obtain rfl := Option.some.inj hn
  exact ⟨natText_ne_nil _, natText_digits _⟩

/-- What is loaded from a sound array, whole or not. -/
theorem Vars.Sound.load (hs : ∀ w a, w <+: "set".toList → w ≠ [] → w ≠ "set".toList →
    I.command [w] a = none) (hb : b.Sound) {text : Text} (htext : text <+: fileText b) :
    (loadCache I (some text)).Sound ∧ ∀ k, k ≠ updatecountKey →
      (loadCache I (some text)).lookup k = (cleared true).lookup k ∨
      (loadCache I (some text)).lookup k = emptycache.lookup k ∨
      (loadCache I (some text)).lookup k = b.lookup k := by
  rcases load_torn I hs hb.keys (fun k v hv => (hb.sturdy k v hv).quotingType) htext with h | h
  · rw [h]
    exact ⟨cleared_sound true, fun k _ => .inl rfl⟩
  refine ⟨⟨fun k hk => ?_, fun k v hv => ?_⟩, fun k hk => .inr ?_⟩
  · obtain ⟨v, hv⟩ := Option.isSome_iff_exists.mp (AList.lookup_isSome.mpr hk)
    rcases h k with h | h | ⟨u, w, hu, -, -⟩
    · exact hb.keys k (AList.lookup_isSome.mp (Option.isSome_of_mem (h.symm.trans hv)))
    · exact AList.lookup_isSome.mp (Option.isSome_of_mem (h.symm.trans hv))
    · exact hb.keys k (AList.lookup_isSome.mp (Option.isSome_of_mem hu))
  · rcases h k with h | h | ⟨u, w, hu, htorn, h⟩
    · exact hb.sturdy k v (h.symm.trans hv)
    · exact emptycache_sturdy (h.symm.trans hv)
    · obtain rfl := Option.some.inj (h.symm.trans hv)
      exact (hb.sturdy k u hu).torn htorn
  · rcases h k with h | h | ⟨u, w, hu, htorn, h⟩
    · exact .inr h
    · exact .inl h
    · obtain rfl := (hb.sturdy k u hu).eq_of_torn htorn hk
      exact .inr (h.trans hu.symm)

/-- The file is a beginning of what the last run that wrote it had to write. -/
def Log.Begun (s : Log) : Prop :=
  s.file = none ∧ s.saves = [] ∨
    ∃ b text, s.file = some text ∧ s.saves.head? = some b ∧ b.Sound ∧ text <+: fileText b

/-- What a run does to a sound array leaves it sound. -/
def Session.Keeps (r : Session) : Prop := ∀ a : Vars, a.Sound → (r.work a).Sound

theorem Log.Begun.sound (hs : ∀ w a, w <+: "set".toList → w ≠ [] → w ≠ "set".toList →
    I.command [w] a = none) {s : Log} (h : s.Begun) : (loadCache I s.file).Sound := by
  rcases h with ⟨h, -⟩ | ⟨b, text, h, -, hb, htext⟩
  · rw [h]
    exact cleared_sound false
  · rw [h]
    exact (hb.load I hs htext).1

theorem Log.Begun.next (hs : ∀ w a, w <+: "set".toList → w ≠ [] → w ≠ "set".toList →
    I.command [w] a = none) {s : Log} (h : s.Begun) {r : Session} (hr : r.Keeps) :
    (s.next I r).Begun := by
  rw [Log.next]
  dsimp only
  split_ifs with hw
  · split
    · rename_i b hb
      refine .inr ⟨b, _, rfl, rfl, (hr _ (h.sound I hs)).saved hb, ?_⟩
      split
      · exact List.take_prefix _ _
      · exact List.prefix_rfl
    · exact h
  · exact h

end

end Tmake.Makecache
