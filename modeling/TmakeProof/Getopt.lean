import Mathlib.Data.List.AList
import Mathlib.Data.List.Induction
import Mathlib.Data.List.TakeWhile

/-! # Options

`getopt-core` of `lib/getopt.tcl`, and the grammar that it implements: `Parses` says
how the words of a command are read under the definitions of its options, and
`Assigned` which variables are set.
-/
namespace Tmake.Getopt

/-- The value of a variable: a word or a list. -/
inductive Value where
  | word (w : String)
  | list (l : List String)
  deriving DecidableEq

abbrev Vars := AList fun _ : String => Value

/-! ## The procedure -/

/-- What follows `--` at the start of a word. -/
def dashes (w : String) : Option (List Char) :=
  match w.toList with
  | '-' :: '-' :: cs => some cs
  | _ => none

/-- The first two elements of `split $s $c`. -/
def pieces (c : Char) (s : String) : String × String :=
  (String.ofList (s.toList.takeWhile (· ≠ c)),
    String.ofList (((s.toList.dropWhile (· ≠ c)).drop 1).takeWhile (· ≠ c)))

/-- `^--([^:]*)(:*)(.*)$`: the name, the number of colons and what follows. -/
def splitDef (i : String) : Option (String × Nat × String) :=
  (dashes i).map fun cs =>
    let rest := cs.dropWhile (· ≠ ':')
    (String.ofList (cs.takeWhile (· ≠ ':')), (rest.takeWhile (· = ':')).length,
      String.ofList (rest.dropWhile (· = ':')))

/-- What the definitions say. -/
structure Info where
  boolopts : AList fun _ : String => String × String := ∅
  stropts : AList fun _ : String => Nat × String := ∅
  vars : Vars := ∅
  haveargs : Nat := 0
  named : List String := []

/-- The definition of a boolean option. -/
def addBool (name : String) (info : Info) : Info :=
  let nd := if '=' ∈ name.toList then pieces '=' name else (name, "0")
  if '|' ∈ nd.1.toList then
    let pn := pieces '|' nd.1
    { info with
      boolopts := (info.boolopts.insert (pn.1 ++ pn.2) (pn.2, "0")).insert pn.2 (pn.2, "1")
      vars := info.vars.insert pn.2 (.word nd.2) }
  else
    { info with
      boolopts := info.boolopts.insert nd.1 (nd.1, "1")
      vars := info.vars.insert nd.1 (.word nd.2) }

/-- One round of the loop over the definitions. -/
def addDef (info : Info) (i : String) : Except String Info :=
  match splitDef i with
  | some (name, 0, _) => .ok (addBool name info)
  | some (name, 1, extra) => .ok { info with stropts := info.stropts.insert name (1, extra) }
  | some (name, 2, extra) => .ok { info with stropts := info.stropts.insert name (2, extra) }
  | some _ => .error ("Bad getopt specification: " ++ i)
  | none =>
    .ok (if i = "args" then { info with haveargs := info.haveargs + 1 }
      else { info with named := info.named ++ [i] })

/-- `^--([^=]+)=(.*)`, or else `^--(.*)`: the name of an option, and its value. -/
def splitArg (arg : String) : Option (String × Option String) :=
  (dashes arg).map fun cs =>
    if '=' ∈ cs ∧ cs.head? ≠ some '=' then
      (String.ofList (cs.takeWhile (· ≠ '=')), some (String.ofList ((cs.dropWhile (· ≠ '=')).drop 1)))
    else (String.ofList cs, none)

/-- What an option does to a variable: it sets the value or appends it. -/
structure Setting where
  name : String
  value : String
  append : Bool
  deriving DecidableEq

/-- What an option that is given means. -/
def setting (info : Info) (name : String) (value : Option String) : Except String Setting :=
  match info.boolopts.lookup name with
  | some (optname, optval) =>
    match value with
    | some _ => .error ("Option --" ++ name ++ " does not accept a parameter")
    | none => .ok ⟨optname, optval, false⟩
  | none =>
    match info.stropts.lookup name with
    | some (type, extra) =>
      match value with
      | some value => .ok ⟨name, value, type ≠ 1⟩
      | none =>
        if extra ≠ "" then .ok ⟨name, extra, type ≠ 1⟩
        else .error ("Option --" ++ name ++ " requires a parameter")
    | none => .error ("Unknown option: --" ++ name)

/-- `set` or `lappend`. -/
def Setting.apply (vars : Vars) (s : Setting) : Vars :=
  if s.append then
    match vars.lookup s.name with
    | some (.list l) => vars.insert s.name (.list (l ++ [s.value]))
    | some (.word w) => vars.insert s.name (.list [w, s.value])
    | none => vars.insert s.name (.list [s.value])
  else vars.insert s.name (.word s.value)

/-- The loop over the arguments: the variables that are set, and the words that remain. -/
def parseArgs (info : Info) : Vars → List String → Except String (Vars × List String)
  | vars, [] => .ok (vars, [])
  | vars, arg :: args =>
    if arg = "--" then .ok (vars, args)
    else
      match splitArg arg with
      | none => .ok (vars, arg :: args)
      | some (name, value) =>
        match setting info name value with
        | .error msg => .error msg
        | .ok s => parseArgs info (s.apply vars) args

/-- `getopt-core`: the variables that are set, and the remaining words. -/
def getoptCore (optdef argv : List String) : Except String (Vars × List String) :=
  match optdef.foldlM addDef {} with
  | .error msg => .error msg
  | .ok info =>
    match parseArgs info info.vars argv with
    | .error msg => .error msg
    | .ok (vars, nargv) =>
      if nargv.length < info.named.length then
        .error ("No value supplied for " ++ info.named.getD nargv.length "")
      else if info.haveargs = 0 ∧ nargv.length > info.named.length then
        .error "Too many parameters supplied"
      else
        .ok ((info.named.zip nargv).foldl (fun vars nv => vars.insert nv.1 (.word nv.2)) vars,
          nargv.drop info.named.length)

/-! ## The grammar -/

/-- A definition. -/
inductive Item where
  | bool (negation : Option String) (name : String) (default : Option Bool)
  | str (repeatable : Bool) (name : String) (default : Option String)
  | named (name : String)
  | args
  deriving DecidableEq

def bit (b : Bool) : String := if b then "1" else "0"

/-- How a definition is written. -/
def Item.word : Item → String
  | .bool negation name default =>
    "--" ++ (negation.elim "" (· ++ "|") ++ name ++ default.elim "" fun b => "=" ++ bit b)
  | .str repeatable name default =>
    "--" ++ (name ++ (if repeatable then "::" else ":") ++ default.getD "")
  | .named name => name
  | .args => "args"

/-- The names contain none of the signs that separate the parts of a definition. -/
def Item.WellFormed : Item → Prop
  | .bool negation name _ => name ≠ "" ∧ (∀ c ∈ [':', '=', '|'], c ∉ name.toList) ∧
      ∀ p ∈ negation, ∀ c ∈ [':', '=', '|'], c ∉ p.toList
  | .str _ name default => name ≠ "" ∧ (∀ c ∈ [':', '='], c ∉ name.toList) ∧
      ∀ d ∈ default, d ≠ "" ∧ d.toList.head? ≠ some ':'
  | .named name => dashes name = none ∧ name ≠ "args"
  | .args => True

/-- The names under which an option is given. -/
def Item.spellings : Item → List String
  | .bool negation name _ => negation.toList.map (· ++ name) ++ [name]
  | .str _ name _ => [name]
  | _ => []

/-- The variable that an item sets. -/
def Item.vars : Item → List String
  | .bool _ name _ | .str _ name _ | .named name => [name]
  | .args => []

def namedOf (items : List Item) : List String :=
  items.filterMap fun
    | .named name => some name
    | _ => none

/-- Definitions with distinct names. -/
structure Distinct (items : List Item) : Prop where
  wellFormed : ∀ item ∈ items, item.WellFormed
  spellings : (items.flatMap Item.spellings).Nodup
  vars : (items.flatMap Item.vars).Nodup

/-- The legal forms of the options: no value for a boolean one, and a value or a default for
another. -/
inductive Means (items : List Item) : String → Setting → Prop where
  | on {negation name default} (h : .bool negation name default ∈ items) :
    Means items ("--" ++ name) ⟨name, "1", false⟩
  | off {p name default} (h : .bool (some p) name default ∈ items) :
    Means items ("--" ++ (p ++ name)) ⟨name, "0", false⟩
  | value {repeatable name default} (v : String) (h : .str repeatable name default ∈ items) :
    Means items ("--" ++ (name ++ "=" ++ v)) ⟨name, v, repeatable⟩
  | default {repeatable name d} (h : .str repeatable name (some d) ∈ items) :
    Means items ("--" ++ name) ⟨name, d, repeatable⟩

/-- The words are options in a legal form, then optionally `--`, then the words that are left.
Without `--` the first of these does not look like an option. -/
inductive Parses (items : List Item) : List String → List Setting → List String → Prop where
  | option {arg s args settings words} (harg : Means items arg s)
    (hrest : Parses items args settings words) : Parses items (arg :: args) (s :: settings) words
  | dashes (words) : Parses items ("--" :: words) [] words
  | words (words) (h : ∀ w ∈ words.head?, Getopt.dashes w = none) : Parses items words [] words

/-- As many words as named arguments, or more with `args`. -/
def Enough (items : List Item) (words : List String) : Prop :=
  (namedOf items).length ≤ words.length ∧
    (.args ∈ items ∨ words.length ≤ (namedOf items).length)

/-- The values that are given for a variable, in order. -/
def given (settings : List Setting) (name : String) : List String :=
  (settings.filter (·.name = name)).map Setting.value

/-- The variables that are set. -/
structure Assigned (items : List Item) (settings : List Setting) (words : List String)
    (vars : Vars) : Prop where
  bool : ∀ negation name default, .bool negation name default ∈ items →
    vars.lookup name =
      some (.word ((given settings name).getLast?.getD (bit (default.getD false))))
  single : ∀ name default, .str false name default ∈ items →
    vars.lookup name = (given settings name).getLast?.map .word
  repeatable : ∀ name default, .str true name default ∈ items →
    vars.lookup name = if given settings name = [] then none else some (.list (given settings name))
  named : ∀ (k : Nat) name, (namedOf items)[k]? = some name → vars.lookup name = words[k]?.map .word
  others : ∀ name, name ∉ items.flatMap Item.vars → vars.lookup name = none

example : (getoptCore ["--no|stage", "--install:", "filename", "args"]
    ["--stage", "--nostage", "--install=abc", "test.c", "extra1"]).toOption.map
      (fun r => (r.1.lookup "stage", r.1.lookup "install", r.1.lookup "filename", r.2)) =
    some (some (.word "0"), some (.word "abc"), some (.word "test.c"), ["extra1"]) := by decide

/-! ## How definitions and arguments are taken apart -/

theorem dashes_append (s : String) : dashes ("--" ++ s) = some s.toList := by
  rw [dashes, String.toList_append]
  rfl

theorem dashes_eq_some {w : String} {cs : List Char} (h : dashes w = some cs) :
    w = "--" ++ String.ofList cs := by
  rw [dashes] at h
  split at h
  · rename_i cs' hw
    obtain rfl := Option.some.inj h
    apply String.toList_inj.mp
    rw [hw, String.toList_append]
    simp only [String.toList_ofList]
    rfl
  · contradiction

section
variable {c : Char} {l rest : List Char}

theorem takeWhile_ne (h : c ∉ l) : (l ++ c :: rest).takeWhile (· ≠ c) = l := by
  rw [List.takeWhile_append_of_pos fun x hx => by simpa using fun heq : x = c => h (heq ▸ hx)]
  simp

theorem dropWhile_ne (h : c ∉ l) : (l ++ c :: rest).dropWhile (· ≠ c) = c :: rest := by
  rw [List.dropWhile_append_of_pos fun x hx => by simpa using fun heq : x = c => h (heq ▸ hx)]
  simp

theorem takeWhile_ne_self (h : c ∉ l) : l.takeWhile (· ≠ c) = l :=
  List.takeWhile_eq_self_iff.mpr fun x hx => by simpa using fun heq : x = c => h (heq ▸ hx)

theorem dropWhile_ne_self (h : c ∉ l) : l.dropWhile (· ≠ c) = [] :=
  List.dropWhile_eq_nil_iff.mpr fun x hx => by simpa using fun heq : x = c => h (heq ▸ hx)

end

theorem splitArg_name {name : String} (h : '=' ∉ name.toList) :
    splitArg ("--" ++ name) = some (name, none) := by
  rw [splitArg, dashes_append, Option.map_some, if_neg fun hc => h hc.1, String.ofList_toList]

theorem splitArg_value {name : String} (v : String) (h : '=' ∉ name.toList) (hne : name ≠ "") :
    splitArg ("--" ++ (name ++ "=" ++ v)) = some (name, some v) := by
  have hlist : (name ++ "=" ++ v).toList = name.toList ++ '=' :: v.toList := by
    simp [String.toList_append]
  have hhead : (name.toList ++ '=' :: v.toList).head? ≠ some '=' := by
    cases hname : name.toList with
    | nil => exact absurd (String.toList_inj.mp (hname.trans rfl)) hne
    | cons x xs =>
      intro heq
      rw [hname] at h
      exact h (Option.some.inj heq ▸ List.mem_cons_self)
  rw [splitArg, dashes_append, Option.map_some, hlist, if_pos ⟨by simp, hhead⟩, takeWhile_ne h,
    dropWhile_ne h, List.drop_one, List.tail_cons, String.ofList_toList, String.ofList_toList]

/-- The word that was taken apart. -/
theorem splitArg_inv {arg name : String} {value : Option String}
    (h : splitArg arg = some (name, value)) :
    arg = "--" ++ value.elim name fun v => name ++ "=" ++ v := by
  obtain ⟨cs, hcs, heq⟩ := Option.map_eq_some_iff.mp h
  rw [dashes_eq_some hcs]
  congr 1
  split at heq
  · rename_i hmem
    obtain ⟨rfl, rfl⟩ := Prod.mk.inj heq
    rw [Option.elim_some, ← String.toList_inj, String.toList_append, String.toList_append]
    simp only [String.toList_ofList]
    have hdrop : cs.dropWhile (· ≠ '=') = '=' :: (cs.dropWhile (· ≠ '=')).drop 1 := by
      cases hd : cs.dropWhile (· ≠ '=') with
      | nil =>
        have hall := List.dropWhile_eq_nil_iff.mp hd '=' hmem.1
        exact absurd hall (by simp)
      | cons x xs =>
        have hx := List.head?_dropWhile_not (· ≠ '=') cs
        rw [hd] at hx
        have hx : x = '=' := by simpa using hx
        rw [hx]
        rfl
    calc cs = cs.takeWhile (· ≠ '=') ++ cs.dropWhile (· ≠ '=') := (List.takeWhile_append_dropWhile).symm
      _ = _ := by rw [hdrop]; simp
  · obtain ⟨rfl, rfl⟩ := Prod.mk.inj heq
    rfl

theorem pieces_eq {c : Char} {a b : String} (ha : c ∉ a.toList) (hb : c ∉ b.toList)
    (sep : String) (hsep : sep.toList = [c]) : pieces c (a ++ sep ++ b) = (a, b) := by
  have hlist : (a ++ sep ++ b).toList = a.toList ++ c :: b.toList := by
    simp [String.toList_append, hsep]
  rw [pieces, hlist, takeWhile_ne ha, dropWhile_ne ha, List.drop_one, List.tail_cons,
    takeWhile_ne_self hb, String.ofList_toList, String.ofList_toList]

/-- What a definition adds. -/
def Item.add (info : Info) : Item → Info
  | .bool negation name default =>
    { info with
      boolopts := ((negation.elim info.boolopts fun p =>
        info.boolopts.insert (p ++ name) (name, "0")).insert name (name, "1"))
      vars := info.vars.insert name (.word (bit (default.getD false))) }
  | .str repeatable name default =>
    { info with
      stropts := info.stropts.insert name (if repeatable then 2 else 1, default.getD "") }
  | .named name => { info with named := info.named ++ [name] }
  | .args => { info with haveargs := info.haveargs + 1 }

theorem noSign {signs : List Char} {name : String} (h : signs.all (fun c => c ∉ name.toList) = true) :
    ∀ c ∈ signs, c ∉ name.toList := by simpa using h

theorem bit_noSign (b : Bool) : ∀ c ∈ [':', '=', '|'], c ∉ (bit b).toList := by
  cases b <;> exact noSign (by decide)

theorem colons_none {l : List Char} (h : l.head? ≠ some ':') :
    l.takeWhile (· = ':') = [] ∧ l.dropWhile (· = ':') = l := by
  cases l with
  | nil => exact ⟨rfl, rfl⟩
  | cons x xs =>
    have hx : ¬decide (x = ':') = true := by simpa using fun heq : x = ':' => h (heq ▸ rfl)
    exact ⟨List.takeWhile_cons_of_neg hx, List.dropWhile_cons_of_neg hx⟩

theorem addDef_str (info : Info) {repeatable : Bool} {name : String} {default : Option String}
    (h : (Item.str repeatable name default).WellFormed) :
    addDef info (Item.str repeatable name default).word =
      .ok ((Item.str repeatable name default).add info) := by
  obtain ⟨-, hname, hdefault⟩ := h
  have hcolon : ':' ∉ name.toList := hname ':' (by simp)
  have hextra : (default.getD "").toList.head? ≠ some ':' := by
    cases default with
    | none => decide
    | some d => exact (hdefault d rfl).2
  obtain ⟨htake, hdrop⟩ := colons_none hextra
  have hsplit : splitDef (Item.str repeatable name default).word =
      some (name, if repeatable then 2 else 1, default.getD "") := by
    cases repeatable with
    | false =>
      have hlist : (name ++ ":" ++ default.getD "").toList =
          name.toList ++ ':' :: (default.getD "").toList := by
        simp [String.toList_append]
      show splitDef ("--" ++ (name ++ ":" ++ default.getD "")) = _
      rw [splitDef, dashes_append, Option.map_some, hlist, takeWhile_ne hcolon, dropWhile_ne hcolon,
        String.ofList_toList]
      simp [htake, hdrop]
    | true =>
      have hlist : (name ++ "::" ++ default.getD "").toList =
          name.toList ++ ':' :: (':' :: (default.getD "").toList) := by
        simp [String.toList_append]
      show splitDef ("--" ++ (name ++ "::" ++ default.getD "")) = _
      rw [splitDef, dashes_append, Option.map_some, hlist, takeWhile_ne hcolon, dropWhile_ne hcolon,
        String.ofList_toList]
      simp [htake, hdrop]
  rw [addDef, hsplit]
  cases repeatable <;> rfl

/-- The word of a boolean option without the dashes. -/
def boolBody (negation : Option String) (name : String) (default : Option Bool) : String :=
  negation.elim "" (· ++ "|") ++ name ++ default.elim "" fun b => "=" ++ bit b

theorem mem_boolBody {negation : Option String} {name : String} {default : Option Bool} {c : Char}
    (hc : c ≠ '|') (hname : c ∉ name.toList) (hneg : ∀ p ∈ negation, c ∉ p.toList)
    (h : c ∈ (boolBody negation name default).toList) :
    ∃ b, default = some b ∧ c ∈ ("=" ++ bit b).toList := by
  rw [boolBody, String.toList_append, String.toList_append] at h
  rcases List.mem_append.mp h with h | h
  · rcases List.mem_append.mp h with h | h
    · cases negation with
      | none => exact absurd h (by simp)
      | some p =>
        rw [Option.elim_some, String.toList_append] at h
        rcases List.mem_append.mp h with h | h
        · exact absurd h (hneg p rfl)
        · exact absurd (List.mem_singleton.mp h) hc
    · exact absurd h hname
  · cases default with
    | none => exact absurd h (by simp)
    | some b => exact ⟨b, rfl, h⟩

theorem addBool_word (info : Info) {negation : Option String} {name : String} {default : Option Bool}
    (h : (Item.bool negation name default).WellFormed) :
    addBool (boolBody negation name default) info = (Item.bool negation name default).add info := by
  obtain ⟨-, hname, hneg⟩ := h
  have hnoEquals : ∀ default : Option Bool, default = none →
      '=' ∉ (boolBody negation name default).toList := by
    rintro default rfl hmem
    obtain ⟨b, hb, -⟩ := mem_boolBody (by decide) (hname '=' (by simp))
      (fun p hp => hneg p hp '=' (by simp)) hmem
    contradiction
  -- the name with its negation, and the default
  have hequals : (if '=' ∈ (boolBody negation name default).toList then
        pieces '=' (boolBody negation name default)
      else (boolBody negation name default, "0")) =
      (boolBody negation name none, bit (default.getD false)) := by
    cases default with
    | none => exact if_neg (hnoEquals none rfl)
    | some b =>
      have hbody : boolBody negation name (some b) = boolBody negation name none ++ "=" ++ bit b := by
        simp [boolBody, String.append_assoc]
      rw [hbody, if_pos (by simp [String.toList_append]),
        pieces_eq (hnoEquals none rfl) (bit_noSign b '=' (by simp)) "=" rfl]
      rfl
  rw [addBool, hequals]
  dsimp only
  cases negation with
  | none =>
    have hbody : boolBody none name none = name := by simp [boolBody]
    rw [hbody, if_neg (hname '|' (by simp))]
    rfl
  | some p =>
    have hbody : boolBody (some p) name none = p ++ "|" ++ name := by simp [boolBody]
    rw [hbody, if_pos (by simp [String.toList_append]),
      pieces_eq (hneg p rfl '|' (by simp)) (hname '|' (by simp)) "|" rfl]
    rfl

/-- A definition is read as it is meant. -/
theorem addDef_word (info : Info) {item : Item} (h : item.WellFormed) :
    addDef info item.word = .ok (item.add info) := by
  cases item with
  | bool negation name default =>
    have hcolon : ':' ∉ (boolBody negation name default).toList := by
      intro hmem
      obtain ⟨b, -, hb⟩ := mem_boolBody (by decide) (h.2.1 ':' (by simp))
        (fun p hp => h.2.2 p hp ':' (by simp)) hmem
      cases b <;> exact absurd hb (by decide)
    have hsplit : splitDef (Item.bool negation name default).word =
        some (boolBody negation name default, 0, "") := by
      show splitDef ("--" ++ boolBody negation name default) = _
      rw [splitDef, dashes_append, Option.map_some, takeWhile_ne_self hcolon,
        dropWhile_ne_self hcolon, String.ofList_toList]
      rfl
    rw [addDef, hsplit]
    exact congrArg Except.ok (addBool_word info h)
  | str repeatable name default => exact addDef_str info h
  | named name =>
    have hsplit : splitDef name = none := by rw [splitDef, h.1, Option.map_none]
    rw [addDef, Item.word, hsplit]
    exact congrArg Except.ok (if_neg h.2)
  | args => rfl

theorem foldlM_addDef {items : List Item} (h : ∀ item ∈ items, item.WellFormed) (info : Info) :
    (items.map Item.word).foldlM addDef info = .ok (items.foldl Item.add info) := by
  induction items generalizing info with
  | nil => rfl
  | cons item items ih =>
    rw [List.map_cons, List.foldlM_cons, addDef_word info (h item List.mem_cons_self)]
    exact ih (fun i hi => h i (List.mem_cons_of_mem _ hi)) (item.add info)

/-! ## What the definitions come to -/

def insertAll {β : Type} (m : AList fun _ : String => β) (l : List (String × β)) :
    AList fun _ : String => β :=
  l.foldl (fun m kv => m.insert kv.1 kv.2) m

section
variable {β : Type} {m : AList fun _ : String => β} {l : List (String × β)} {k : String} {v : β}

theorem insertAll_append (m : AList fun _ : String => β) (l l' : List (String × β)) :
    insertAll m (l ++ l') = insertAll (insertAll m l) l' := List.foldl_append

theorem lookup_insertAll_ne (hk : k ∉ l.map Prod.fst) : (insertAll m l).lookup k = m.lookup k := by
  induction l generalizing m with
  | nil => rfl
  | cons kv l ih =>
    rw [List.map_cons, List.mem_cons, not_or] at hk
    rw [insertAll, List.foldl_cons, ← insertAll, ih hk.2, AList.lookup_insert_ne hk.1]

theorem lookup_insertAll_mem (h : (l.map Prod.fst).Nodup) (hk : (k, v) ∈ l) :
    (insertAll m l).lookup k = some v := by
  induction l generalizing m with
  | nil => exact absurd hk (by simp)
  | cons kv l ih =>
    rw [List.map_cons, List.nodup_cons] at h
    rw [insertAll, List.foldl_cons, ← insertAll]
    rcases List.mem_cons.mp hk with rfl | hk
    · rw [lookup_insertAll_ne h.1, AList.lookup_insert]
    · exact ih h.2 hk

theorem lookup_insertAll (h : (l.map Prod.fst).Nodup) :
    (insertAll ∅ l).lookup k = some v ↔ (k, v) ∈ l := by
  refine ⟨fun hlookup => ?_, lookup_insertAll_mem h⟩
  by_cases hk : k ∈ l.map Prod.fst
  · obtain ⟨⟨k, v'⟩, hmem, rfl⟩ := List.mem_map.mp hk
    rw [lookup_insertAll_mem h hmem] at hlookup
    exact Option.some.inj hlookup ▸ hmem
  · rw [lookup_insertAll_ne hk] at hlookup
    exact absurd hlookup (by simp)

end

def Item.boolPairs : Item → List (String × String × String)
  | .bool negation name _ => negation.toList.map (fun p => (p ++ name, name, "0")) ++ [(name, name, "1")]
  | _ => []

def Item.strPairs : Item → List (String × Nat × String)
  | .str repeatable name default => [(name, if repeatable then 2 else 1, default.getD "")]
  | _ => []

def Item.varPairs : Item → List (String × Value)
  | .bool _ name default => [(name, .word (bit (default.getD false)))]
  | _ => []

/-- All definitions together. -/
def infoOf (items : List Item) : Info where
  boolopts := insertAll ∅ (items.flatMap Item.boolPairs)
  stropts := insertAll ∅ (items.flatMap Item.strPairs)
  vars := insertAll ∅ (items.flatMap Item.varPairs)
  haveargs := items.count .args
  named := namedOf items

theorem namedOf_append (items items' : List Item) :
    namedOf (items ++ items') = namedOf items ++ namedOf items' := List.filterMap_append

theorem foldl_add (items : List Item) : items.foldl Item.add {} = infoOf items := by
  induction items using List.reverseRecOn with
  | nil => rfl
  | append_singleton items item ih =>
    rw [List.foldl_append, List.foldl_cons, List.foldl_nil, ih, infoOf, infoOf]
    simp only [List.flatMap_append, List.flatMap_singleton, insertAll_append, namedOf_append,
      List.count_append]
    cases item with
    | bool negation name default =>
      cases negation <;> simp [Item.add, Item.boolPairs, Item.strPairs, Item.varPairs, insertAll, namedOf]
    | str repeatable name default =>
      simp [Item.add, Item.boolPairs, Item.strPairs, Item.varPairs, insertAll, namedOf]
    | named name =>
      simp [Item.add, Item.boolPairs, Item.strPairs, Item.varPairs, insertAll, namedOf]
    | args =>
      simp [Item.add, Item.boolPairs, Item.strPairs, Item.varPairs, insertAll, namedOf]

theorem sublist_flatMap {α β : Type} {f g : α → List β} (h : ∀ a, (f a).Sublist (g a)) (l : List α) :
    (l.flatMap f).Sublist (l.flatMap g) := by
  induction l with
  | nil => exact .slnil
  | cons a l ih =>
    rw [List.flatMap_cons, List.flatMap_cons]
    exact (h a).append ih

section
variable {items : List Item}

theorem Distinct.boolKeys (h : Distinct items) :
    ((items.flatMap Item.boolPairs).map Prod.fst).Nodup := by
  rw [List.map_flatMap]
  refine (sublist_flatMap (fun item => ?_) items).nodup h.spellings
  cases item <;> simp [Item.boolPairs, Item.spellings, Function.comp_def]

theorem Distinct.strKeys (h : Distinct items) :
    ((items.flatMap Item.strPairs).map Prod.fst).Nodup := by
  rw [List.map_flatMap]
  refine (sublist_flatMap (fun item => ?_) items).nodup h.spellings
  cases item <;> simp [Item.strPairs, Item.spellings]

theorem Distinct.varKeys (h : Distinct items) :
    ((items.flatMap Item.varPairs).map Prod.fst).Nodup := by
  rw [List.map_flatMap]
  refine (sublist_flatMap (fun item => ?_) items).nodup h.vars
  cases item <;> simp [Item.varPairs, Item.vars]

end

/-! ## One option -/

section
variable {items : List Item}

/-- Two elements with a common image are the same, if all images differ. -/
theorem eq_of_nodup_flatMap {α β : Type} {f : α → List β} {l : List α} (h : (l.flatMap f).Nodup)
    {a a' : α} (ha : a ∈ l) (ha' : a' ∈ l) {b : β} (hb : b ∈ f a) (hb' : b ∈ f a') : a = a' := by
  induction l with
  | nil => exact absurd ha (by simp)
  | cons x l ih =>
    rw [List.flatMap_cons, List.nodup_append] at h
    obtain ⟨-, hl, hdisjoint⟩ := h
    rcases List.mem_cons.mp ha with rfl | hal
    · rcases List.mem_cons.mp ha' with rfl | hal'
      · rfl
      · exact absurd rfl (hdisjoint b hb b (List.mem_flatMap.mpr ⟨a', hal', hb'⟩))
    · rcases List.mem_cons.mp ha' with rfl | hal'
      · exact absurd rfl (hdisjoint b hb' b (List.mem_flatMap.mpr ⟨a, hal, hb⟩))
      · exact ih hl hal hal'

theorem Distinct.lookup_boolopts (h : Distinct items) {n : String} {x : String × String} :
    (infoOf items).boolopts.lookup n = some x ↔ ∃ item ∈ items, (n, x) ∈ item.boolPairs :=
  (lookup_insertAll h.boolKeys).trans List.mem_flatMap

theorem Distinct.lookup_stropts (h : Distinct items) {n : String} {x : Nat × String} :
    (infoOf items).stropts.lookup n = some x ↔ ∃ item ∈ items, (n, x) ∈ item.strPairs :=
  (lookup_insertAll h.strKeys).trans List.mem_flatMap

theorem boolPairs_spelled {item : Item} {n : String} {x : String × String}
    (h : (n, x) ∈ item.boolPairs) : n ∈ item.spellings := by
  cases item with
  | bool negation name default =>
    rcases List.mem_append.mp h with h | h
    · obtain ⟨p, hp, heq⟩ := List.mem_map.mp h
      exact List.mem_append_left _ (List.mem_map.mpr ⟨p, hp, congrArg Prod.fst heq⟩)
    · exact List.mem_append_right _ (List.mem_singleton.mpr (congrArg Prod.fst (List.mem_singleton.mp h)))
  | _ => exact absurd h (by simp [Item.boolPairs])

theorem Distinct.setting_str (h : Distinct items) {repeatable : Bool} {name : String}
    {default : Option String} (hitem : .str repeatable name default ∈ items) (value : Option String)
    (v : String) (hv : value = some v ∨ value = none ∧ default = some v) :
    setting (infoOf items) name value = .ok ⟨name, v, repeatable⟩ := by
  have hbool : (infoOf items).boolopts.lookup name = none := by
    cases hlookup : (infoOf items).boolopts.lookup name with
    | none => rfl
    | some x =>
      obtain ⟨item, hmem, hpair⟩ := h.lookup_boolopts.mp hlookup
      have hspelled : name ∈ (Item.str repeatable name default).spellings := List.mem_singleton.mpr rfl
      obtain rfl := eq_of_nodup_flatMap h.spellings hitem hmem hspelled (boolPairs_spelled hpair)
      exact absurd hpair (by simp [Item.boolPairs])
  have hstr := h.lookup_stropts.mpr
    ⟨_, hitem, show (name, if repeatable then 2 else 1, default.getD "") ∈ _ by simp [Item.strPairs]⟩
  have happend : decide ((if repeatable then 2 else 1) ≠ 1) = repeatable := by
    cases repeatable <;> rfl
  rw [setting, hbool, hstr]
  dsimp only
  rcases hv with rfl | ⟨rfl, rfl⟩
  · rw [happend]
  · have hne : v ≠ "" := ((h.wellFormed _ hitem).2.2 v rfl).1
    dsimp only
    rw [Option.getD_some, if_pos hne, happend]

/-- A word is an option in a legal form exactly when it is taken for one, and means what it is
taken to mean. -/
theorem means_iff (h : Distinct items) (arg : String) (s : Setting) :
    Means items arg s ↔ ∃ name value, splitArg arg = some (name, value) ∧
      setting (infoOf items) name value = .ok s := by
  constructor
  · intro hmeans
    cases hmeans with
    | @on negation name default hitem =>
      have hequals := (h.wellFormed _ hitem).2.1 '=' (by simp)
      have hlookup := h.lookup_boolopts.mpr ⟨_, hitem, show (name, name, "1") ∈ _ by simp [Item.boolPairs]⟩
      exact ⟨name, none, splitArg_name hequals, by rw [setting, hlookup]⟩
    | @off p name default hitem =>
      obtain ⟨-, hname, hp⟩ := h.wellFormed _ hitem
      have hequals : '=' ∉ (p ++ name).toList := by
        rw [String.toList_append, List.mem_append, not_or]
        exact ⟨hp p rfl '=' (by simp), hname '=' (by simp)⟩
      have hlookup := h.lookup_boolopts.mpr
        ⟨_, hitem, show (p ++ name, name, "0") ∈ _ by simp [Item.boolPairs]⟩
      exact ⟨p ++ name, none, splitArg_name hequals, by rw [setting, hlookup]⟩
    | @value repeatable name default v hitem =>
      obtain ⟨hne, hname, -⟩ := h.wellFormed _ hitem
      exact ⟨name, some v, splitArg_value v (hname '=' (by simp)) hne,
        h.setting_str hitem (some v) v (.inl rfl)⟩
    | @default repeatable name d hitem =>
      obtain ⟨hne, hname, -⟩ := h.wellFormed _ hitem
      exact ⟨name, none, splitArg_name (hname '=' (by simp)),
        h.setting_str hitem none d (.inr ⟨rfl, rfl⟩)⟩
  · rintro ⟨name, value, hsplit, hsetting⟩
    have harg := splitArg_inv hsplit
    rw [setting] at hsetting
    cases hbool : (infoOf items).boolopts.lookup name with
    | some x =>
      obtain ⟨item, hitem, hpair⟩ := h.lookup_boolopts.mp hbool
      rw [hbool] at hsetting
      cases value with
      | some v => contradiction
      | none =>
        obtain rfl := Except.ok.inj hsetting
        cases item with
        | bool negation optname default =>
          rcases List.mem_append.mp hpair with hpair | hpair
          · obtain ⟨p, hp, heq⟩ := List.mem_map.mp hpair
            obtain ⟨rfl, rfl⟩ := Prod.mk.inj heq
            obtain rfl := Option.mem_toList.mp hp
            exact harg ▸ .off hitem
          · obtain ⟨rfl, rfl⟩ := Prod.mk.inj (List.mem_singleton.mp hpair)
            exact harg ▸ .on hitem
        | _ => exact absurd hpair (by simp [Item.boolPairs])
    | none =>
      rw [hbool] at hsetting
      cases hstr : (infoOf items).stropts.lookup name with
      | none =>
        rw [hstr] at hsetting
        contradiction
      | some x =>
        obtain ⟨item, hitem, hpair⟩ := h.lookup_stropts.mp hstr
        cases item with
        | str repeatable optname default =>
          obtain ⟨rfl, -⟩ := Prod.mk.inj (List.mem_singleton.mp hpair)
          cases value with
          | some v =>
            have hok := h.setting_str hitem (some v) v (.inl rfl)
            rw [setting, hbool] at hok
            obtain rfl := Except.ok.inj (hsetting.symm.trans hok)
            exact harg ▸ .value v hitem
          | none =>
            cases default with
            | none =>
              obtain ⟨-, rfl⟩ := Prod.mk.inj (List.mem_singleton.mp hpair)
              rw [hstr] at hsetting
              contradiction
            | some d =>
              have hok := h.setting_str hitem none d (.inr ⟨rfl, rfl⟩)
              rw [setting, hbool] at hok
              obtain rfl := Except.ok.inj (hsetting.symm.trans hok)
              exact harg ▸ .default hitem
        | _ => exact absurd hpair (by simp [Item.strPairs])

end

/-! ## The arguments -/

section
variable {items : List Item} {settings : List Setting}

theorem Means.ne_dashes (h : Distinct items) {arg : String} {s : Setting} (hmeans : Means items arg s) :
    arg ≠ "--" := by
  have hne : ∀ t : String, t ≠ "" → "--" ++ t ≠ "--" := by
    intro t ht heq
    have heq' : "--" ++ t = "--" ++ "" := heq.trans (by simp)
    exact ht ((String.append_right_inj _).mp heq')
  cases hmeans with
  | on hitem => exact hne _ (h.wellFormed _ hitem).1
  | off hitem =>
    refine hne _ fun heq => (h.wellFormed _ hitem).1 ?_
    exact (String.append_eq_empty_iff.mp heq).2
  | value v hitem => exact hne _ (by simp [String.append_eq_empty_iff])
  | default hitem => exact hne _ (h.wellFormed _ hitem).1

theorem splitArg_none {arg : String} : splitArg arg = none ↔ dashes arg = none := by
  rw [splitArg, Option.map_eq_none_iff]

/-- The loop over the arguments reads them as the grammar does. -/
theorem parseArgs_iff (h : Distinct items) (argv : List String) (vars vars' : Vars)
    (words : List String) : parseArgs (infoOf items) vars argv = .ok (vars', words) ↔
      ∃ settings, Parses items argv settings words ∧ vars' = settings.foldl Setting.apply vars := by
  induction argv generalizing vars with
  | nil =>
    constructor
    · intro hok
      obtain ⟨rfl, rfl⟩ := Prod.mk.inj (Except.ok.inj hok)
      exact ⟨[], .words [] (by simp), rfl⟩
    · rintro ⟨settings, hparses, rfl⟩
      cases hparses
      rfl
  | cons arg args ih =>
    rw [parseArgs]
    by_cases hdashes : arg = "--"
    · subst hdashes
      rw [if_pos rfl]
      constructor
      · intro hok
        obtain ⟨rfl, rfl⟩ := Prod.mk.inj (Except.ok.inj hok)
        exact ⟨[], .dashes args, rfl⟩
      · rintro ⟨settings, hparses, rfl⟩
        cases hparses with
        | option harg => exact absurd rfl (harg.ne_dashes h)
        | dashes => rfl
        | words _ hwords => exact absurd (hwords "--" rfl) (by decide)
    · rw [if_neg hdashes]
      cases hsplit : splitArg arg with
      | none =>
        constructor
        · intro hok
          obtain ⟨rfl, rfl⟩ := Prod.mk.inj (Except.ok.inj hok)
          refine ⟨[], .words _ fun w hw => ?_, rfl⟩
          exact Option.some.inj hw ▸ splitArg_none.mp hsplit
        · rintro ⟨settings, hparses, rfl⟩
          cases hparses with
          | option harg =>
            obtain ⟨name, value, hsome, -⟩ := (means_iff h _ _).mp harg
            exact absurd (hsplit.symm.trans hsome) (by simp)
          | dashes => exact absurd rfl hdashes
          | words => rfl
      | some nv =>
        obtain ⟨name, value⟩ := nv
        have hnot : ¬∀ w ∈ (arg :: args).head?, dashes w = none := fun hwords =>
          absurd (hsplit.symm.trans (splitArg_none.mpr (hwords arg rfl))) (by simp)
        cases hsetting : setting (infoOf items) name value with
        | error msg =>
          dsimp only
          rw [hsetting]
          constructor
          · intro hok
            contradiction
          · rintro ⟨settings, hparses, -⟩
            cases hparses with
            | option harg =>
              obtain ⟨name', value', hsome, hok⟩ := (means_iff h _ _).mp harg
              obtain ⟨rfl, rfl⟩ := Prod.mk.inj (Option.some.inj (hsplit.symm.trans hsome))
              exact absurd (hsetting.symm.trans hok) (by simp)
            | dashes => exact absurd rfl hdashes
            | words _ hwords => exact absurd hwords hnot
        | ok s =>
          dsimp only
          rw [hsetting]
          dsimp only
          rw [ih]
          have hmeans := (means_iff h arg s).mpr ⟨name, value, hsplit, hsetting⟩
          constructor
          · rintro ⟨settings, hparses, rfl⟩
            exact ⟨s :: settings, .option hmeans hparses, rfl⟩
          · rintro ⟨settings, hparses, rfl⟩
            cases hparses with
            | option harg hrest =>
              obtain ⟨name', value', hsome, hok⟩ := (means_iff h _ _).mp harg
              obtain ⟨rfl, rfl⟩ := Prod.mk.inj (Option.some.inj (hsplit.symm.trans hsome))
              obtain rfl := Except.ok.inj (hsetting.symm.trans hok)
              exact ⟨_, hrest, rfl⟩
            | dashes => exact absurd rfl hdashes
            | words _ hwords => exact absurd hwords hnot

/-! ## The values -/

theorem given_append (settings : List Setting) (s : Setting) (name : String) :
    given (settings ++ [s]) name = given settings name ++ if s.name = name then [s.value] else [] := by
  rw [given, List.filter_append, List.map_append]
  congr 1
  by_cases hs : s.name = name <;> simp [hs]

theorem lookup_apply_ne {s : Setting} {name : String} (hne : s.name ≠ name) (vars : Vars) :
    (s.apply vars).lookup name = vars.lookup name := by
  rw [Setting.apply]
  split
  · split <;> exact AList.lookup_insert_ne (Ne.symm hne)
  · exact AList.lookup_insert_ne (Ne.symm hne)

/-- The last value of a variable that is set counts. -/
theorem lookup_set {name : String} (hset : ∀ s ∈ settings, s.name = name → s.append = false)
    (vars : Vars) : (settings.foldl Setting.apply vars).lookup name =
      ((given settings name).getLast?.map .word).or (vars.lookup name) := by
  induction settings using List.reverseRecOn with
  | nil => rfl
  | append_singleton settings s ih =>
    rw [List.foldl_append, List.foldl_cons, List.foldl_nil, given_append]
    by_cases hs : s.name = name
    · have happend : s.append = false := hset s (by simp) hs
      have hnot : ¬s.append = true := by simp [happend]
      rw [if_pos hs, List.getLast?_concat, Setting.apply, if_neg hnot, ← hs, AList.lookup_insert]
      rfl
    · rw [if_neg hs, List.append_nil, lookup_apply_ne hs]
      exact ih fun s' hs' => hset s' (by simp [hs'])

/-- All values of a variable to which they are appended count. -/
theorem lookup_append {name : String} (happend : ∀ s ∈ settings, s.name = name → s.append = true)
    {vars : Vars} (hnone : vars.lookup name = none) :
    (settings.foldl Setting.apply vars).lookup name =
      if given settings name = [] then none else some (.list (given settings name)) := by
  induction settings using List.reverseRecOn with
  | nil => exact hnone
  | append_singleton settings s ih =>
    have hold := ih fun s' hs' => happend s' (by simp [hs'])
    rw [List.foldl_append, List.foldl_cons, List.foldl_nil, given_append]
    by_cases hs : s.name = name
    · rw [if_pos hs, if_neg (by simp), Setting.apply, if_pos (happend s (by simp) hs), hs, hold]
      by_cases hgiven : given settings name = []
      · rw [if_pos hgiven, hgiven]
        exact AList.lookup_insert _
      · rw [if_neg hgiven]
        exact AList.lookup_insert _
    · rw [if_neg hs, List.append_nil, lookup_apply_ne hs]
      exact hold

end

/-! ## The variables -/

def Item.appends : Item → Bool
  | .str repeatable _ _ => repeatable
  | _ => false

section
variable {items : List Item} {settings : List Setting} {words : List String}

/-- A setting is that of an option which is defined. -/
theorem Means.item {arg : String} {s : Setting} (h : Means items arg s) :
    ∃ item ∈ items, s.name ∈ item.vars ∧ s.append = item.appends ∧ ∀ n, item ≠ .named n := by
  cases h with
  | on hitem => exact ⟨_, hitem, List.mem_singleton.mpr rfl, rfl, by simp⟩
  | off hitem => exact ⟨_, hitem, List.mem_singleton.mpr rfl, rfl, by simp⟩
  | value v hitem => exact ⟨_, hitem, List.mem_singleton.mpr rfl, rfl, by simp⟩
  | default hitem => exact ⟨_, hitem, List.mem_singleton.mpr rfl, rfl, by simp⟩

theorem Parses.item {argv : List String} (h : Parses items argv settings words) {s : Setting}
    (hs : s ∈ settings) :
    ∃ item ∈ items, s.name ∈ item.vars ∧ s.append = item.appends ∧ ∀ n, item ≠ .named n := by
  induction h with
  | option harg hrest ih =>
    rcases List.mem_cons.mp hs with rfl | hs
    · exact harg.item
    · exact ih hs
  | dashes => exact absurd hs (by simp)
  | words => exact absurd hs (by simp)

theorem Distinct.item_eq (h : Distinct items) {item item' : Item} (hitem : item ∈ items)
    (hitem' : item' ∈ items) {name : String} (hname : name ∈ item.vars) (hname' : name ∈ item'.vars) :
    item = item' := eq_of_nodup_flatMap h.vars hitem hitem' hname hname'

theorem Parses.append_eq {argv : List String} (hparses : Parses items argv settings words)
    (h : Distinct items) {item : Item} (hitem : item ∈ items) {name : String}
    (hname : name ∈ item.vars) : ∀ s ∈ settings, s.name = name → s.append = item.appends := by
  rintro s hs rfl
  obtain ⟨item', hitem', hname', happend, -⟩ := hparses.item hs
  rw [happend, h.item_eq hitem hitem' hname hname']

theorem mem_namedOf {name : String} : name ∈ namedOf items ↔ .named name ∈ items := by
  rw [namedOf, List.mem_filterMap]
  constructor
  · rintro ⟨item, hitem, heq⟩
    cases item with
    | named n => exact Option.some.inj heq ▸ hitem
    | _ => contradiction
  · exact fun hitem => ⟨_, hitem, rfl⟩

theorem Distinct.not_named (h : Distinct items) {item : Item} (hitem : item ∈ items)
    (hkind : ∀ n, item ≠ .named n) {name : String} (hname : name ∈ item.vars) :
    name ∉ namedOf items := fun hmem =>
  hkind name (h.item_eq hitem (mem_namedOf.mp hmem) hname (List.mem_singleton.mpr rfl))

theorem Distinct.named_nodup (h : Distinct items) : (namedOf items).Nodup := by
  have heq : namedOf items = items.flatMap fun item => if item.spellings = [] then item.vars else [] := by
    clear h
    induction items with
    | nil => rfl
    | cons item items ih =>
      rw [List.flatMap_cons, ← ih]
      cases item <;> simp [namedOf, Item.spellings, Item.vars]
  rw [heq]
  refine (sublist_flatMap (fun item => ?_) items).nodup h.vars
  split <;> simp

/-- What the variables hold before any argument is read. -/
theorem Distinct.lookup_vars (h : Distinct items) {name : String} {v : Value} :
    (infoOf items).vars.lookup name = some v ↔ ∃ item ∈ items, (name, v) ∈ item.varPairs :=
  (lookup_insertAll h.varKeys).trans List.mem_flatMap

theorem varPairs_vars {item : Item} {name : String} {v : Value} (h : (name, v) ∈ item.varPairs) :
    name ∈ item.vars := by
  cases item with
  | bool negation n default => exact List.mem_singleton.mpr (congrArg Prod.fst (List.mem_singleton.mp h))
  | _ => exact absurd h (by simp [Item.varPairs])

theorem Distinct.lookup_vars_none (h : Distinct items) {item : Item} (hitem : item ∈ items)
    (hpairs : item.varPairs = []) {name : String} (hname : name ∈ item.vars) :
    (infoOf items).vars.lookup name = none := by
  cases hlookup : (infoOf items).vars.lookup name with
  | none => rfl
  | some v =>
    obtain ⟨item', hitem', hpair⟩ := h.lookup_vars.mp hlookup
    rw [← h.item_eq hitem hitem' hname (varPairs_vars hpair), hpairs] at hpair
    exact absurd hpair (by simp)

/-- The variables after the named arguments have their words. -/
def assignNamed (items : List Item) (words : List String) (vars : Vars) : Vars :=
  ((namedOf items).zip words).foldl (fun vars nv => vars.insert nv.1 (.word nv.2)) vars

theorem assignNamed_eq (vars : Vars) : assignNamed items words vars =
    insertAll vars (((namedOf items).zip words).map fun nv => (nv.1, .word nv.2)) := by
  rw [assignNamed, insertAll, List.foldl_map]

theorem keys_named : ((((namedOf items).zip words).map fun nv => (nv.1, Value.word nv.2)).map
    Prod.fst).Sublist (namedOf items) := by
  rw [List.map_map, List.zip_eq_zipWith]
  have hprefix : ∀ names words : List String,
      ((List.zipWith Prod.mk names words).map (Prod.fst ∘ fun nv => (nv.1, Value.word nv.2))).Sublist
        names := by
    intro names
    induction names with
    | nil => exact fun words => .slnil
    | cons name names ih =>
      intro words
      cases words with
      | nil => exact List.nil_sublist _
      | cons w words => exact (ih words).cons_cons name
  exact hprefix _ _

theorem lookup_assignNamed_ne {name : String} (h : name ∉ namedOf items) (vars : Vars) :
    (assignNamed items words vars).lookup name = vars.lookup name := by
  rw [assignNamed_eq]
  exact lookup_insertAll_ne fun hmem => h (keys_named.subset hmem)

theorem lookup_assignNamed (h : Distinct items) {k : Nat} {name w : String}
    (hk : (namedOf items)[k]? = some name) (hw : words[k]? = some w) (vars : Vars) :
    (assignNamed items words vars).lookup name = some (.word w) := by
  rw [assignNamed_eq]
  refine lookup_insertAll_mem (keys_named.nodup h.named_nodup) ?_
  refine List.mem_map.mpr ⟨(name, w), List.mem_of_getElem? (i := k) ?_, rfl⟩
  rw [List.getElem?_zip_eq_some]
  exact ⟨hk, hw⟩

/-- The variables hold what is given. -/
theorem assigned (h : Distinct items) {argv : List String}
    (hparses : Parses items argv settings words)
    (hlength : (namedOf items).length ≤ words.length) :
    Assigned items settings words
      (assignNamed items words (settings.foldl Setting.apply (infoOf items).vars)) where
  bool := by
    intro negation name default hitem
    have hname : name ∈ (Item.bool negation name default).vars := List.mem_singleton.mpr rfl
    have hdefault := h.lookup_vars.mpr
      ⟨_, hitem, show (name, Value.word (bit (default.getD false))) ∈ _ by simp [Item.varPairs]⟩
    rw [lookup_assignNamed_ne (h.not_named hitem (by simp) hname),
      lookup_set (hparses.append_eq h hitem hname), hdefault]
    cases (given settings name).getLast? <;> rfl
  single := by
    intro name default hitem
    have hname : name ∈ (Item.str false name default).vars := List.mem_singleton.mpr rfl
    rw [lookup_assignNamed_ne (h.not_named hitem (by simp) hname),
      lookup_set (hparses.append_eq h hitem hname), h.lookup_vars_none hitem (by simp [Item.varPairs]) hname,
      Option.or_none]
  repeatable := by
    intro name default hitem
    have hname : name ∈ (Item.str true name default).vars := List.mem_singleton.mpr rfl
    rw [lookup_assignNamed_ne (h.not_named hitem (by simp) hname),
      lookup_append (hparses.append_eq h hitem hname)
        (h.lookup_vars_none hitem (by simp [Item.varPairs]) hname)]
  named := by
    intro k name hk
    have hlt : k < words.length :=
      (List.getElem?_eq_some_iff.mp hk).1.trans_le hlength
    rw [List.getElem?_eq_getElem hlt]
    exact lookup_assignNamed h hk (List.getElem?_eq_getElem hlt) _
  others := by
    intro name hname
    have hgiven : ∀ s ∈ settings, s.name ≠ name := by
      rintro s hs rfl
      obtain ⟨item, hitem, hvars, -⟩ := hparses.item hs
      exact hname (List.mem_flatMap.mpr ⟨item, hitem, hvars⟩)
    have hvars : (infoOf items).vars.lookup name = none := by
      cases hlookup : (infoOf items).vars.lookup name with
      | none => rfl
      | some v =>
        obtain ⟨item, hitem, hpair⟩ := h.lookup_vars.mp hlookup
        exact absurd (List.mem_flatMap.mpr ⟨item, hitem, varPairs_vars hpair⟩) hname
    have hnot : name ∉ namedOf items := fun hmem =>
      hname (List.mem_flatMap.mpr ⟨_, mem_namedOf.mp hmem, List.mem_singleton.mpr rfl⟩)
    have hnone : given settings name = [] := by
      rw [given, List.filter_eq_nil_iff.mpr fun s hs => by simpa using hgiven s hs, List.map_nil]
    rw [lookup_assignNamed_ne hnot, lookup_set fun s hs heq => absurd heq (hgiven s hs), hnone, hvars]
    rfl

/-- The procedure succeeds when the arguments parse and there are enough words. -/
theorem getoptCore_iff (h : Distinct items) (argv : List String) (r : Vars × List String) :
    getoptCore (items.map Item.word) argv = .ok r ↔
      ∃ settings words, Parses items argv settings words ∧ Enough items words ∧
        r = (assignNamed items words (settings.foldl Setting.apply (infoOf items).vars),
          words.drop (namedOf items).length) := by
  rw [getoptCore, foldlM_addDef h.wellFormed, foldl_add]
  dsimp only
  cases hparse : parseArgs (infoOf items) (infoOf items).vars argv with
  | error msg =>
    constructor
    · intro hok
      contradiction
    · rintro ⟨settings, words, hparses, -⟩
      have hok := (parseArgs_iff h argv (infoOf items).vars _ words).mpr ⟨settings, hparses, rfl⟩
      exact absurd (hparse.symm.trans hok) (by simp)
  | ok result =>
    obtain ⟨vars, nargv⟩ := result
    dsimp only
    have henough : Enough items nargv ↔ ¬nargv.length < (namedOf items).length ∧
        ¬((infoOf items).haveargs = 0 ∧ nargv.length > (namedOf items).length) := by
      show _ ↔ _ ∧ ¬(items.count .args = 0 ∧ _)
      rw [Enough, List.count_eq_zero, not_lt, not_and_or, not_not, gt_iff_lt, not_lt]
    constructor
    · intro hok
      split at hok
      · contradiction
      · rename_i hfew
        split at hok
        · contradiction
        · rename_i hmany
          obtain ⟨settings, hparses, rfl⟩ := (parseArgs_iff h argv _ _ _).mp hparse
          exact ⟨settings, nargv, hparses, henough.mpr ⟨hfew, hmany⟩, (Except.ok.inj hok).symm⟩
    · rintro ⟨settings, words, hparses, hwords, rfl⟩
      have hok := (parseArgs_iff h argv (infoOf items).vars _ words).mpr ⟨settings, hparses, rfl⟩
      obtain ⟨rfl, rfl⟩ := Prod.mk.inj (Except.ok.inj (hparse.symm.trans hok))
      obtain ⟨hfew, hmany⟩ := henough.mp hwords
      exact (if_neg hfew).trans (if_neg hmany)

end

/-- Options, then optionally `--`, then the named arguments and the rest: what parses in this
way is accepted, and nothing else is; each option, named argument and remaining word has
what is given for it. -/
theorem getopt_core (items : List Item) (h : Distinct items) (argv : List String) :
    (∀ vars rest, getoptCore (items.map Item.word) argv = .ok (vars, rest) →
      ∃ settings words, Parses items argv settings words ∧ Enough items words ∧
        Assigned items settings words vars ∧ rest = words.drop (namedOf items).length) ∧
    (∀ settings words, Parses items argv settings words → Enough items words →
      ∃ vars, getoptCore (items.map Item.word) argv =
          .ok (vars, words.drop (namedOf items).length) ∧ Assigned items settings words vars) := by
  constructor
  · intro vars rest hok
    obtain ⟨settings, words, hparses, henough, heq⟩ := (getoptCore_iff h argv _).mp hok
    obtain ⟨rfl, rfl⟩ := Prod.mk.inj heq
    exact ⟨settings, words, hparses, henough, assigned h hparses henough.1, rfl⟩
  · intro settings words hparses henough
    exact ⟨_, (getoptCore_iff h argv _).mpr ⟨settings, words, hparses, henough, rfl⟩,
      assigned h hparses henough.1⟩

/-- A flag that can be negated, an option with a value, a list, a named argument and more. -/
def publishOptions : List Item :=
  [.bool (some "no") "strip" (some true), .str false "install" none,
    .str true "exclude" (some "tests"), .named "dest", .args]

theorem getopt_core_publishOptions : Distinct publishOptions ∧
    ∃ vars, getoptCore (publishOptions.map Item.word)
        ["--nostrip", "--exclude", "--exclude=doc", "--", "--dest", "a"] = .ok (vars, ["a"]) ∧
      Assigned publishOptions
        [⟨"strip", "0", false⟩, ⟨"exclude", "tests", true⟩, ⟨"exclude", "doc", true⟩]
        ["--dest", "a"] vars := by
  have hdistinct : Distinct publishOptions := by
    refine ⟨?_, by decide, by decide⟩
    intro item hitem
    simp only [publishOptions, List.mem_cons, List.not_mem_nil, or_false] at hitem
    rcases hitem with rfl | rfl | rfl | rfl | rfl
    · exact ⟨by decide, noSign (by decide), by rintro p ⟨⟩; exact noSign (by decide)⟩
    · exact ⟨by decide, noSign (by decide), by simp⟩
    · exact ⟨by decide, noSign (by decide), by simp⟩
    · exact ⟨by decide, by decide⟩
    · trivial
  have hstrip : .bool (some "no") "strip" (some true) ∈ publishOptions := by decide
  have hexclude : .str true "exclude" (some "tests") ∈ publishOptions := by decide
  have hoff : Means publishOptions "--nostrip" ⟨"strip", "0", false⟩ := .off (p := "no") hstrip
  have hdefault : Means publishOptions "--exclude" ⟨"exclude", "tests", true⟩ := .default hexclude
  have hvalue : Means publishOptions "--exclude=doc" ⟨"exclude", "doc", true⟩ :=
    .value "doc" hexclude
  exact ⟨hdistinct, (getopt_core publishOptions hdistinct _).2 _ ["--dest", "a"]
    (.option hoff (.option hdefault (.option hvalue (.dashes _)))) ⟨by decide, by decide⟩⟩

end Tmake.Getopt
