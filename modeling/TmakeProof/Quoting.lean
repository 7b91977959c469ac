import Mathlib.Data.List.Basic
import TmakeProof.ListAppend

/-! # Quoted flags

`quote-if-needed` puts backslashes before quotes and backslashes, and quotes around
what has blanks or tabs.  The flag goes by way of `CFlags` into `C_FLAGS`, `run` joins
it with the rest of the command, and reads the command line as a list.  A flag is left
as it is where it has other white space, where it begins with a brace, and where it is
empty; `quoted_flags` says that these are the flags that do not arrive.
-/
namespace Tmake.Quoting
open ListSyntax (Piece State IsList pieces readOn scan raws decode isSpace joined tailText)

/-! ## The commands -/

/-- Quotes and backslashes. -/
def special (c : Char) : Bool := c = '"' || c = '\\'

def blank (c : Char) : Bool := c = ' ' || c = '\t'

/-- `string map [list \" \\" \\ \\\\]`. -/
def escapeSpecial (cs : List Char) : List Char :=
  cs.flatMap fun c => if special c then ['\\', c] else [c]

/-- `quote-if-needed`. -/
def quoteIfNeeded (cs : List Char) : List Char :=
  let str := if cs.any special then escapeSpecial cs else cs
  if str.any blank then '"' :: (str ++ ['"']) else str

/-- `quote-if-needed`. -/
def quote (str : String) : String := String.ofList (quoteIfNeeded str.toList)

/-- `shell-quote-list`. -/
def shellQuoteList (argv : List String) : String := joinList (argv.map quote)

/-- `CFlags`. -/
def cFlags (args : List String) (s : Parse) : Parse := defineAppend "C_FLAGS" args s

/-- The command line of `run`: a file of the current directory is run as such. -/
def commandLine (isFile : String → Bool) (args : List String) : String :=
  let cmdline := joinList args
  let cmd := (tclList cmdline).head?.getD ""
  if !cmd.toList.elem '/' && isFile cmd then "./" ++ cmdline else cmdline

/-- The words that `run` gives to `exec`. -/
def run (isFile : String → Bool) (args : List String) : List String :=
  tclList (commandLine isFile args)

/-- The strings that arrive: they are quoted for their blanks, or there is nothing to quote. -/
def Quotable (cs : List Char) : Prop :=
  cs ≠ [] ∧ (cs.any blank = true ∨ cs.any isSpace = false ∧ cs.head? ≠ some '{')

/-! ## Reading what is quoted -/

/-- How a character is read that has been escaped where needed. -/
def mark (c : Char) : Piece := if special c then .escaped c else .plain c

section
variable {cs : List Char} {ps : List Piece} {c : Char}

theorem escapeSpecial_cons (c : Char) (cs : List Char) :
    escapeSpecial (c :: cs) = (if special c then ['\\', c] else [c]) ++ escapeSpecial cs := rfl

theorem escapeSpecial_none (h : cs.any special = false) : escapeSpecial cs = cs := by
  induction cs with
  | nil => rfl
  | cons c cs ih =>
    rw [List.any_cons, Bool.or_eq_false_iff] at h
    rw [escapeSpecial_cons, h.1, ih h.2]
    rfl

theorem any_escapeSpecial (cs : List Char) : (escapeSpecial cs).any blank = cs.any blank := by
  induction cs with
  | nil => rfl
  | cons c cs ih =>
    rw [escapeSpecial_cons, List.any_append, ih, List.any_cons]
    split <;> simp [blank]

/-- The test for special characters only saves work. -/
theorem quoteIfNeeded_eq (cs : List Char) :
    quoteIfNeeded cs =
      if cs.any blank then '"' :: (escapeSpecial cs ++ ['"']) else escapeSpecial cs := by
  have hstr : (if cs.any special then escapeSpecial cs else cs) = escapeSpecial cs := by
    split
    · rfl
    · exact (escapeSpecial_none (Bool.eq_false_iff.mpr ‹_›)).symm
  rw [quoteIfNeeded, hstr, any_escapeSpecial]

theorem pieces_escapeSpecial (cs t : List Char) :
    pieces (escapeSpecial cs ++ t) = cs.map mark ++ pieces t := by
  induction cs with
  | nil => rfl
  | cons c cs ih =>
    rw [escapeSpecial_cons, List.append_assoc, List.map_cons, mark]
    by_cases hc : special c = true
    · rw [if_pos hc, if_pos hc]
      exact congrArg (Piece.escaped c :: ·) ih
    · have hne : c ≠ '\\' := by
        rintro rfl
        exact hc (by decide)
      rw [if_neg hc, if_neg hc, List.singleton_append, ListSyntax.pieces_cons hne, ih]
      rfl

theorem decode_mark (cs : List Char) : decode 0 (cs.map mark) = cs := by
  induction cs with
  | nil => rfl
  | cons c cs ih =>
    rw [List.map_cons, mark]
    by_cases hc : special c = true
    · rw [if_pos hc]
      rcases Bool.or_eq_true_iff.mp hc with h | h
      · obtain rfl := of_decide_eq_true h
        exact congrArg ('"' :: ·) ih
      · obtain rfl := of_decide_eq_true h
        exact congrArg ('\\' :: ·) ih
    · rw [if_neg hc]
      exact congrArg (c :: ·) ih

theorem mark_ne_plain (h : special c = true) (d : Char) : mark d ≠ .plain c := by
  rw [mark]
  split
  · exact Piece.noConfusion
  · rintro heq
    injection heq with heq
    exact absurd (heq ▸ h) ‹_›

theorem scan_quoted (cs : List Char) (ps : List Piece) :
    scan (.quoted ps) (cs.map mark) = ([], .quoted (ps ++ cs.map mark)) := by
  induction cs generalizing ps with
  | nil => simp [scan]
  | cons c cs ih =>
    have hc : mark c ≠ .plain '"' := mark_ne_plain (by decide) c
    simp [scan, State.step, hc, ih]

theorem scan_word (h : cs.any isSpace = false) (ps : List Piece) :
    scan (.word ps) (cs.map mark) = ([], .word (ps ++ cs.map mark)) := by
  induction cs generalizing ps with
  | nil => simp [scan]
  | cons c cs ih =>
    rw [List.any_cons, Bool.or_eq_false_iff] at h
    have hstep : (State.word ps).step (mark c) = (.word (ps ++ [mark c]), none) := by
      rw [mark]
      split
      · rfl
      · simp [State.step, h.1]
    simp [scan, hstep, ih h.2]

/-- A word that is no brace is read as it is. -/
theorem scan_between (hne : cs ≠ []) (h : cs.any isSpace = false) (hbrace : cs.head? ≠ some '{') :
    scan .between (cs.map mark) = ([], .word (cs.map mark)) := by
  obtain ⟨c, cs, rfl⟩ := List.exists_cons_of_ne_nil hne
  rw [List.any_cons, Bool.or_eq_false_iff] at h
  have hc : c ≠ '{' := fun hc => hbrace (hc ▸ rfl)
  have hstep : State.between.step (mark c) = (.word [mark c], none) := by
    rw [mark]
    split
    · rfl
    · rename_i hspecial
      have hquote : c ≠ '"' := by
        rintro rfl
        exact hspecial (by decide)
      simp [State.step, h.1, hc, hquote]
  simp [scan, hstep, scan_word h.2]

/-- A quotable string is one element, and leaves nothing open. -/
theorem elements_quotable (h : Quotable cs) :
    IsList (quoteIfNeeded cs) ∧ ListSyntax.elements (quoteIfNeeded cs) = [cs] := by
  have hmark : .plain '\\' ∉ cs.map mark := by
    intro hmem
    obtain ⟨c, -, hc⟩ := List.mem_map.mp hmem
    exact mark_ne_plain (by decide) c hc
  rw [quoteIfNeeded_eq]
  by_cases hblank : cs.any blank = true
  · have hpieces : pieces ('"' :: (escapeSpecial cs ++ ['"'])) =
        .plain '"' :: (cs.map mark ++ [.plain '"']) := by
      rw [ListSyntax.pieces_cons (by decide), pieces_escapeSpecial]
      rfl
    have hscan : scan .between (.plain '"' :: (cs.map mark ++ [.plain '"'])) = ([cs], .between) := by
      have hopen : State.between.step (.plain '"') = (.quoted [], none) := rfl
      have hclose : (State.quoted (cs.map mark)).step (.plain '"') = (.between, some cs) := by
        simp [State.step, decode_mark]
      simp [scan, ListSyntax.scan_append, hopen, scan_quoted, hclose]
    rw [if_pos hblank]
    refine ⟨⟨?_, ?_⟩, ?_⟩
    · rw [hpieces, hscan]
      rfl
    · rw [hpieces]
      simpa using hmark
    · rw [ListSyntax.elements, hpieces, readOn, hscan]
      rfl
  · obtain ⟨hspace, hbrace⟩ := h.2.resolve_left hblank
    have hpieces : pieces (escapeSpecial cs) = cs.map mark := by
      have := pieces_escapeSpecial cs []
      rwa [List.append_nil, pieces, List.append_nil] at this
    have hscan := scan_between h.1 hspace hbrace
    rw [if_neg hblank]
    refine ⟨⟨?_, ?_⟩, ?_⟩
    · rw [hpieces, hscan]
      rfl
    · rwa [hpieces]
    · rw [ListSyntax.elements, hpieces, readOn, hscan, State.finish, decode_mark]
      rfl

/-! ## Lists of quoted strings -/

/-- The pieces of a quoted string. -/
def quotedPieces (cs : List Char) : List Piece :=
  if cs.any blank then .plain '"' :: (cs.map mark ++ [.plain '"']) else cs.map mark

theorem pieces_quoteIfNeeded (cs t : List Char) :
    pieces (quoteIfNeeded cs ++ t) = quotedPieces cs ++ pieces t := by
  rw [quoteIfNeeded_eq, quotedPieces]
  split
  · rw [List.cons_append, List.append_assoc, ListSyntax.pieces_cons (by decide),
      pieces_escapeSpecial, List.singleton_append, ListSyntax.pieces_cons (by decide)]
    simp
  · rw [pieces_escapeSpecial]

/-- The characters that quoting neither adds nor takes away. -/
def Kept (c : Char) : Prop := special c = false ∧ c ≠ ' '

theorem Kept.ne_backslash (h : Kept c) : c ≠ '\\' := by
  rintro rfl
  exact absurd h.1 (by decide)

theorem escape_special {d : Char} (h : special d = true) (qs : List Piece) :
    ListSyntax.escape d qs = (d, 0) := by
  rcases Bool.or_eq_true_iff.mp h with h | h
  · obtain rfl := of_decide_eq_true h
    rfl
  · obtain rfl := of_decide_eq_true h
    rfl

theorem tame_mark (h : Kept c) (cs : List Char) : ListSyntax.Tame c (cs.map mark) := by
  intro d hd
  obtain ⟨e, -, he⟩ := List.mem_map.mp hd
  rw [mark] at he
  split at he
  · rename_i hspecial
    injection he with he
    rw [← he]
    exact ⟨fun heq => absurd (heq ▸ hspecial) (by simp [h.1]), escape_special hspecial⟩
  · cases he

theorem tame_quotedPieces (h : Kept c) (cs : List Char) : ListSyntax.Tame c (quotedPieces cs) := by
  have hquote : ListSyntax.Tame c [.plain '"'] := fun d hd => by simp at hd
  rw [quotedPieces]
  split
  · exact hquote.append ((tame_mark h cs).append hquote)
  · exact tame_mark h cs

theorem count_mark (h : Kept c) (cs : List Char) : (cs.map mark).count (.plain c) = cs.count c := by
  induction cs with
  | nil => rfl
  | cons d cs ih =>
    rw [List.map_cons, List.count_cons, List.count_cons, ih, mark]
    by_cases hd : special d = true
    · have hne : d ≠ c := by
        rintro rfl
        exact absurd hd (by simp [h.1])
      simp [hd, hne]
    · simp [hd]

theorem count_quotedPieces (h : Kept c) (cs : List Char) :
    (quotedPieces cs).count (.plain c) = cs.count c := by
  have hne : ('"' : Char) ≠ c := by
    rintro rfl
    exact absurd h.1 (by decide)
  rw [quotedPieces]
  split
  · simp [List.count_append, count_mark h, hne]
  · exact count_mark h cs

theorem joined_quoted (s : List Char) (L : List (List Char)) :
    joined ((s :: L).map quoteIfNeeded) = quoteIfNeeded s ++ tailText (L.map quoteIfNeeded) :=
  ListSyntax.joined_eq _ _

/-- The characters of a list of quoted strings are those of the strings. -/
def Faithful (c : Char) (L : List (List Char)) (ps : List Piece) : Prop :=
  ListSyntax.Tame c ps ∧ ps.count (.plain c) = L.flatten.count c

theorem Faithful.nil (c : Char) : Faithful c [] [] := ⟨fun _ hd => absurd hd List.not_mem_nil, rfl⟩

theorem Faithful.tailText (h : Kept c) {L : List (List Char)}
    (hL : Faithful c L (pieces (joined (L.map quoteIfNeeded)))) :
    Faithful c L (pieces (tailText (L.map quoteIfNeeded))) := by
  cases L with
  | nil => exact Faithful.nil c
  | cons s L =>
    rw [List.map_cons, ListSyntax.tailText, ListSyntax.pieces_cons (by decide)]
    refine ⟨fun d hd => hL.1 d ((List.mem_cons.mp hd).resolve_left (by simp)), ?_⟩
    rw [List.count_cons_of_ne (by simpa using h.2.symm)]
    exact hL.2

theorem faithful_joined (h : Kept c) (L : List (List Char)) :
    Faithful c L (pieces (joined (L.map quoteIfNeeded))) := by
  induction L with
  | nil => exact Faithful.nil c
  | cons s L ih =>
    obtain ⟨htame, hcount⟩ := ih.tailText h
    rw [joined_quoted, pieces_quoteIfNeeded]
    refine ⟨(tame_quotedPieces h s).append htame, ?_⟩
    rw [List.count_append, count_quotedPieces h, hcount, List.flatten_cons, List.count_append]

/-- A word leaves nothing open, and is what is in hand. -/
theorem scan_closed (h : cs.any isSpace = false) (hbrace : cs.head? ≠ some '{') :
    ∃ st, scan .between (cs.map mark) = ([], st) ∧ st.isClosed = true ∧
      st.finish = if cs = [] then none else some cs := by
  by_cases hcs : cs = []
  · exact ⟨.between, by rw [hcs]; rfl, rfl, by rw [if_pos hcs]; rfl⟩
  · refine ⟨.word (cs.map mark), scan_between hcs h hbrace, rfl, ?_⟩
    rw [if_neg hcs, State.finish, decode_mark]

/-- A string with white space that is not quoted is cut there. -/
theorem exists_space (h : cs.any isSpace = true) :
    ∃ a w b, cs = a ++ w :: b ∧ a.any isSpace = false ∧ isSpace w = true := by
  induction cs with
  | nil => cases h
  | cons c cs ih =>
    by_cases hc : isSpace c = true
    · exact ⟨[], c, cs, rfl, rfl, hc⟩
    · rw [List.any_cons, Bool.eq_false_iff.mpr hc, Bool.false_or] at h
      obtain ⟨a, w, b, rfl, ha, hw⟩ := ih h
      exact ⟨c :: a, w, b, rfl, by rw [List.any_cons, ha, Bool.eq_false_iff.mpr hc]; rfl, hw⟩

theorem kept_brace : Kept '{' := ⟨by decide, by decide⟩

theorem kept_space {w : Char} (hw : isSpace w = true) (hblank : blank w = false) : Kept w := by
  refine ⟨?_, ?_⟩
  · by_contra hspecial
    rw [Bool.not_eq_false, special, Bool.or_eq_true, decide_eq_true_eq, decide_eq_true_eq] at hspecial
    rcases hspecial with rfl | rfl
    · cases hw
    · cases hw
  · rintro rfl
    cases hblank

/-- Up to its white space, a string that is not quoted is read as a word. -/
theorem readOn_cut {a b : List Char} {w : Char} (ha : a.any isSpace = false)
    (hbrace : (a ++ w :: b).head? ≠ some '{') (hw : isSpace w = true) (hblank : blank w = false)
    (ps : List Piece) :
    readOn .between ((a ++ w :: b).map mark ++ ps) =
      (if a = [] then [] else [a]) ++ readOn .between (b.map mark ++ ps) := by
  have hhead : a.head? ≠ some '{' := by
    cases a with
    | nil => exact fun h => by cases h
    | cons c a => exact hbrace
  have hmark : mark w = .plain w := if_neg (by simp [(kept_space hw hblank).1])
  obtain ⟨st, hscan, hclosed, hfinish⟩ := scan_closed ha hhead
  rw [List.map_append, List.map_cons, List.append_assoc, List.cons_append, ListSyntax.readOn_append,
    hscan, hmark, ListSyntax.readOn_cons, ListSyntax.step_space hw hclosed, hfinish]
  split <;> rfl

/-- A string that is not quotable loses a character that quoting keeps. -/
theorem lost (hne : cs ≠ []) (h : ¬Quotable cs) (L : List (List Char)) :
    ∃ c, Kept c ∧ (ListSyntax.elements (joined ((cs :: L).map quoteIfNeeded))).flatten.count c <
      (cs :: L).flatten.count c := by
  have hblank : cs.any blank = false := Bool.eq_false_iff.mpr fun hb => h ⟨hne, .inl hb⟩
  rw [ListSyntax.elements, joined_quoted, pieces_quoteIfNeeded, quotedPieces,
    if_neg (by simp [hblank])]
  -- what is read behind the character that is lost has no more than what is written there
  have hrest (c : Char) (hc : Kept c) (st : State) (hst : st.inHand = []) (s : List Char) :
      (readOn st (s.map mark ++ pieces (tailText (L.map quoteIfNeeded)))).flatten.count c ≤
        s.count c + L.flatten.count c := by
    obtain ⟨htame, hcount⟩ := (faithful_joined hc L).tailText hc
    have hle :
        (readOn st (s.map mark ++ pieces (tailText (L.map quoteIfNeeded)))).flatten.count c ≤ _ :=
      ListSyntax.count_readOn_le hc.ne_backslash (hst ▸ fun d hd => absurd hd List.not_mem_nil)
        ((tame_mark hc s).append htame)
    rwa [hst, List.count_nil, Nat.zero_add, List.count_append, count_mark hc, hcount] at hle
  by_cases hbrace : cs.head? = some '{'
  · -- the brace at the beginning opens an element and is gone
    obtain ⟨d, s, rfl⟩ := List.exists_cons_of_ne_nil hne
    obtain rfl := Option.some.inj hbrace
    have hopen : State.between.step (mark '{') = (.braced 0 [], none) := rfl
    have hle := hrest '{' kept_brace (.braced 0 []) rfl s
    refine ⟨'{', kept_brace, ?_⟩
    rw [List.map_cons, List.cons_append, ListSyntax.readOn_cons, hopen, List.flatten_cons,
      List.cons_append, List.count_cons_self, List.count_append]
    exact Nat.lt_succ_of_le hle
  · -- the first white space ends the word and is gone
    have hspace : cs.any isSpace = true := by
      by_contra hspace
      exact h ⟨hne, .inr ⟨Bool.eq_false_iff.mpr hspace, hbrace⟩⟩
    obtain ⟨a, w, b, rfl, ha, hw⟩ := exists_space hspace
    have hwblank : blank w = false := by simpa using List.any_eq_false.mp hblank w (by simp)
    have hle := hrest w (kept_space hw hwblank) .between rfl b
    have hnot : w ∉ a := fun hmem => List.any_eq_false.mp ha w hmem hw
    have hfirst : (if a = [] then [] else [a]).flatten.count w = 0 := by
      split
      · rfl
      · simpa using List.count_eq_zero.mpr hnot
    refine ⟨w, kept_space hw hwblank, ?_⟩
    rw [readOn_cut ha hbrace hw hwblank, List.flatten_append, List.count_append, hfirst,
      Nat.zero_add, List.flatten_cons, List.count_append, List.count_append, List.count_cons_self,
      List.count_eq_zero.mpr hnot]
    omega

theorem elements_joined_cons (h : Quotable cs) (L : List (List Char)) :
    ListSyntax.elements (joined ((cs :: L).map quoteIfNeeded)) =
      cs :: ListSyntax.elements (joined (L.map quoteIfNeeded)) := by
  obtain ⟨hlist, helements⟩ := elements_quotable h
  rw [joined_quoted, ListSyntax.elements_tailText hlist, helements]
  rfl

/-- Where no character is lost, the strings are quotable as far as they are not empty. -/
theorem quotable_of_count {L : List (List Char)} (h : ∀ c, Kept c → L.flatten.count c ≤
      (ListSyntax.elements (joined (L.map quoteIfNeeded))).flatten.count c) :
    ListSyntax.elements (joined (L.map quoteIfNeeded)) = L.filter (fun s => !s.isEmpty) ∧
      ∀ s ∈ L, s ≠ [] → Quotable s := by
  induction L with
  | nil => exact ⟨rfl, fun s hs => absurd hs List.not_mem_nil⟩
  | cons s L ih =>
    by_cases hne : s = []
    · have hskip : ListSyntax.elements (joined ((s :: L).map quoteIfNeeded)) =
          ListSyntax.elements (joined (L.map quoteIfNeeded)) := by
        rw [hne, joined_quoted]
        exact ListSyntax.readOn_tailText .between rfl _
      rw [hskip] at h ⊢
      obtain ⟨helements, hquotable⟩ := ih fun c hc => by simpa [hne] using h c hc
      rw [hne, List.filter_cons_of_neg (by simp)]
      exact ⟨helements, fun t ht htne => hquotable t ((List.mem_cons.mp ht).resolve_left htne) htne⟩
    · -- a quotable string is read on its own, so the rest has lost nothing either
      by_cases hs : Quotable s
      · rw [elements_joined_cons hs] at h ⊢
        obtain ⟨helements, hquotable⟩ := ih fun c hc => by simpa using h c hc
        rw [helements, List.filter_cons_of_pos (by simpa using hne)]
        refine ⟨rfl, fun t ht htne => ?_⟩
        rcases List.mem_cons.mp ht with rfl | ht
        · exact hs
        · exact hquotable t ht htne
      · obtain ⟨c, hc, hlt⟩ := lost hne hs L
        exact absurd (h c hc) (Nat.not_le.mpr hlt)

/-- The strings of a list come back exactly where all of them are quotable. -/
theorem elements_quoted_iff (L : List (List Char)) :
    ListSyntax.elements (joined (L.map quoteIfNeeded)) = L ↔ ∀ s ∈ L, Quotable s := by
  constructor
  · intro h
    obtain ⟨hfilter, hquotable⟩ := quotable_of_count (L := L) fun c _ => by rw [h]
    intro s hs
    rw [h] at hfilter
    have := List.filter_eq_self.mp hfilter.symm s hs
    exact hquotable s hs (by simpa using this)
  · intro h
    induction L with
    | nil => rfl
    | cons s L ih =>
      rw [elements_joined_cons (h s List.mem_cons_self), ih fun t ht => h t (List.mem_cons_of_mem s ht)]

/-! ## A flag among other words -/

/-- Characters that need no escape are not made up by escapes behind them. -/
theorem not_prefix_escapeSpecial {p : List Char} (hne : p ≠ []) (hp : p.any special = false)
    (t : List Char) : ¬(p ++ t) <+: escapeSpecial t := by
  induction t generalizing p with
  | nil =>
    intro h
    exact hne (List.append_eq_nil_iff.mp (List.prefix_nil.mp h)).1
  | cons c t ih =>
    intro h
    obtain ⟨d, p, rfl⟩ := List.exists_cons_of_ne_nil hne
    rw [List.any_cons, Bool.or_eq_false_iff] at hp
    rw [escapeSpecial_cons] at h
    by_cases hc : special c = true
    · rw [if_pos hc] at h
      obtain ⟨rfl, -⟩ := List.cons_prefix_cons.mp h
      exact absurd hp.1 (by decide)
    · rw [if_neg hc] at h
      obtain ⟨rfl, h⟩ := List.cons_prefix_cons.mp h
      have hmore : p ++ [d] ++ t <+: escapeSpecial t := by simpa using h
      refine ih (by simp) ?_ hmore
      rw [List.any_append, hp.2, List.any_cons, hp.1]
      rfl

/-- The element in braces is a part of what stands there. -/
theorem readOn_braced {level : Nat} {ps₀ ps : List Piece} {e : List Char} {es : List (List Char)}
    (h : readOn (.braced level ps₀) ps = e :: es) : ∃ ps₁, ps₁ <+: ps ∧ e = raws (ps₀ ++ ps₁) := by
  induction ps generalizing level ps₀ with
  | nil =>
    obtain ⟨rfl, -⟩ := List.cons.inj h
    exact ⟨[], List.prefix_rfl, by rw [List.append_nil]⟩
  | cons p ps ih =>
    rw [ListSyntax.readOn_cons] at h
    have hmore {level : Nat} (h : readOn (.braced level (ps₀ ++ [p])) ps = e :: es) :
        ∃ ps₁, ps₁ <+: p :: ps ∧ e = raws (ps₀ ++ ps₁) := by
      obtain ⟨ps₁, hprefix, he⟩ := ih h
      exact ⟨p :: ps₁, List.cons_prefix_cons.mpr ⟨rfl, hprefix⟩, by simpa using he⟩
    cases level with
    | zero =>
      rw [State.step] at h
      split_ifs at h
      · exact hmore h
      · obtain ⟨rfl, -⟩ := List.cons.inj h
        exact ⟨[], List.nil_prefix, by rw [List.append_nil]⟩
      · exact hmore h
    | succ level =>
      rw [State.step] at h
      split_ifs at h
      · exact hmore h
      · exact hmore h
      · exact hmore h

/-- A string with no blank is not the element in a brace that stands in it. -/
theorem not_braced {p s : List Char} (ws : List (List Char)) (hp : p.any special = false)
    (hblank : (p ++ '{' :: s).any blank = false)
    (es : List (List Char)) :
    readOn (.braced 0 []) (s.map mark ++ pieces (tailText ws)) ≠ (p ++ '{' :: s) :: es := by
  intro h
  obtain ⟨ps₁, hprefix, he⟩ := readOn_braced h
  have hraws : p ++ '{' :: s <+: escapeSpecial s ++ tailText ws := by
    obtain ⟨ps₂, hps⟩ := hprefix
    refine ⟨raws ps₂, ?_⟩
    rw [he, List.nil_append, raws, raws, ← List.flatMap_append, hps, ← pieces_escapeSpecial]
    exact ListSyntax.raws_pieces _
  have hescape : ¬(p ++ '{' :: s) <+: escapeSpecial s := by
    rw [← List.singleton_append, ← List.append_assoc]
    refine not_prefix_escapeSpecial (by simp) ?_ s
    rw [List.any_append, hp]
    rfl
  rcases List.prefix_or_prefix_of_prefix hraws (List.prefix_append _ _) with h | ⟨r, hr⟩
  · exact hescape h
  · rw [← hr, List.prefix_append_right_inj] at hraws
    by_cases hnil : r = []
    · rw [hnil, List.append_nil] at hr
      exact hescape (hr ▸ List.prefix_rfl)
    · obtain ⟨c, r, rfl⟩ := List.exists_cons_of_ne_nil hnil
      cases ws with
      | nil => exact absurd (List.prefix_nil.mp hraws) (List.cons_ne_nil _ _)
      | cons w ws =>
        obtain ⟨rfl, -⟩ := List.cons_prefix_cons.mp hraws
        rw [← hr, List.any_append, List.any_cons] at hblank
        exact absurd hblank (by simp [blank])

/-- Behind white space, what is left of a string is not read as the string. -/
theorem ne_suffix {p s : List Char} (ws : List (List Char)) (hp : ∀ c ∈ p, isSpace c = true)
    (hblank : (p ++ s).any blank = false) (h : ¬Quotable (p ++ s)) :
    readOn .between (s.map mark ++ pieces (tailText ws)) ≠
      (p ++ s) :: ListSyntax.elements (joined ws) := by
  induction s generalizing p with
  | nil =>
    intro heq
    have hrest := ListSyntax.readOn_tailText .between rfl ws
    rw [List.map_nil, List.nil_append, hrest] at heq
    exact absurd (congrArg List.length heq) (by simp [State.finish])
  | cons c s ih =>
    intro heq
    by_cases hc : isSpace c = true
    · have hcblank : blank c = false := by simpa using List.any_eq_false.mp hblank c (by simp)
      have hhead : ([] ++ c :: s).head? ≠ some '{' := by
        intro hhead
        obtain rfl := Option.some.inj hhead
        cases hc
      have hcut := readOn_cut (a := []) rfl hhead hc hcblank (pieces (tailText ws))
      rw [List.nil_append, if_pos rfl, List.nil_append] at hcut
      rw [hcut] at heq
      have hsame : p ++ c :: s = (p ++ [c]) ++ s := by simp
      rw [hsame] at heq hblank h
      refine ih (fun d hd => ?_) hblank h heq
      rcases List.mem_append.mp hd with hd | hd
      · exact hp d hd
      · exact List.mem_singleton.mp hd ▸ hc
    · by_cases hbrace : c = '{'
      · obtain rfl := hbrace
        have hspecial : p.any special = false := by
          refine List.any_eq_false.mpr fun d hd => ?_
          have hdblank : blank d = false := by
            simpa using List.any_eq_false.mp hblank d (List.mem_append_left _ hd)
          simp [(kept_space (hp d hd) hdblank).1]
        have hopen : State.between.step (mark '{') = (.braced 0 [], none) := rfl
        rw [List.map_cons, List.cons_append, ListSyntax.readOn_cons, hopen] at heq
        exact not_braced ws hspecial hblank _ heq
      · have hhead : (c :: s).head? ≠ some '{' := fun hhead => hbrace (Option.some.inj hhead)
        by_cases hspace : (c :: s).any isSpace = true
        · obtain ⟨a, w, b, hcut, ha, hw⟩ := exists_space hspace
          have hne : a ≠ [] := by
            rintro rfl
            obtain ⟨rfl, -⟩ := List.cons.inj hcut
            exact hc hw
          have hwblank : blank w = false := by
            simpa using List.any_eq_false.mp hblank w (by simp [hcut])
          rw [hcut, readOn_cut ha (hcut ▸ hhead) hw hwblank, if_neg hne] at heq
          have hfirst := congrArg List.length (List.cons.inj heq).1
          simp at hfirst
          omega
        · have hnone := Bool.eq_false_iff.mpr hspace
          rw [ListSyntax.readOn_append, scan_between (List.cons_ne_nil c s) hnone hhead,
            ListSyntax.readOn_tailText _ rfl, State.finish, decode_mark] at heq
          obtain rfl : p = [] := by
            have hfirst : (c :: s).length = (p ++ c :: s).length :=
              congrArg List.length (List.cons.inj heq).1
            rw [List.length_append] at hfirst
            exact List.length_eq_zero_iff.mp (by omega)
          exact h ⟨List.cons_ne_nil c s, .inr ⟨hnone, hhead⟩⟩

/-- A flag is read as one element, before whatever stands behind it, exactly where it is
quotable. -/
theorem elements_flag_iff {s : List Char} (ws : List (List Char)) :
    ListSyntax.elements (quoteIfNeeded s ++ tailText ws) =
      s :: ListSyntax.elements (joined ws) ↔ Quotable s := by
  constructor
  · intro h
    by_contra hs
    by_cases hblank : s.any blank = true
    · exact hs ⟨fun hnil => absurd (hnil ▸ hblank) (by decide), .inl hblank⟩
    · have hquoted : quotedPieces s = s.map mark := if_neg hblank
      rw [ListSyntax.elements, pieces_quoteIfNeeded, hquoted] at h
      exact ne_suffix (p := []) ws (fun c hc => absurd hc List.not_mem_nil)
        (Bool.eq_false_iff.mpr hblank) hs h
  · intro h
    obtain ⟨hlist, helements⟩ := elements_quotable h
    rw [ListSyntax.elements_tailText hlist, helements]
    rfl

end

/-! ## From the flag to the command -/

section
variable {isFile : String → Bool} {pre post later : List String} {v : String} {p : Parse}

/-- What commands `CFlags` append. -/
def flagValues (calls : List (List String)) : List String :=
  (calls.filter fun args => !args.isEmpty).map joinList

theorem getDefine_cFlags (calls : List (List String)) (hfree : "C_FLAGS" ∉ p.fixedvars) :
    getDefine "C_FLAGS" (calls.foldl (fun p args => cFlags args p) p) =
      appended (getDefine "C_FLAGS" p) (flagValues calls) := by
  induction calls generalizing p with
  | nil => rfl
  | cons args calls ih =>
    rw [List.foldl_cons]
    cases args with
    | nil => exact ih hfree
    | cons arg args =>
      have hvalue : getDefine "C_FLAGS" (cFlags (arg :: args) p) =
          appendWithSpace (getDefine "C_FLAGS" p) (joinList (arg :: args)) :=
        getDefine_defineAppend (List.cons_ne_nil arg args) hfree
      have hfree' : "C_FLAGS" ∉ (cFlags (arg :: args) p).fixedvars := by
        rw [cFlags, defineAppend_fixedvars]
        exact hfree
      rw [ih hfree', hvalue]
      rfl

theorem elements_nil_cons (ws : List (List Char)) :
    ListSyntax.elements (joined ([] :: ws)) = ListSyntax.elements (joined ws) := by
  cases ws with
  | nil => rfl
  | cons w ws =>
    rw [ListSyntax.joined_cons _ (List.cons_ne_nil w ws), List.nil_append]
    exact ListSyntax.elements_append IsList.nil rfl _

/-- Empty values at the beginning of a variable are not seen behind it. -/
theorem elements_dropWhile (ws : List String) (post : List (List Char)) :
    ListSyntax.elements (joined (joined (chars (ws.dropWhile (· = ""))) :: post)) =
      ListSyntax.elements (joined (chars ws ++ post)) := by
  induction ws with
  | nil => exact elements_nil_cons post
  | cons w ws ih =>
    by_cases hw : w = ""
    · rw [hw, List.dropWhile_cons_of_pos (by simp), ih]
      exact (elements_nil_cons _).symm
    · rw [List.dropWhile_cons_of_neg (by simpa using hw)]
      by_cases hpost : post = []
      · rw [hpost, List.append_nil]
        rfl
      · have hne : chars (w :: ws) ≠ [] := List.cons_ne_nil _ _
        rw [ListSyntax.joined_cons _ hpost, ListSyntax.joined_append hne hpost]

/-- The words of the command that stand before a flag. -/
def beforeFlag (pre : List String) (v : String) : List String := if v = "" then pre else pre ++ [v]

/-- The command line is what stands before the flags, a blank, and the flags with what is behind. -/
theorem joinList_flags (post flags : List String) (hpre : beforeFlag pre v ≠ []) (hflags : flags ≠ []) :
    ∃ line, (joinList (pre ++ [appended v flags] ++ post)).toList =
        (joinList (beforeFlag pre v)).toList ++ ' ' :: line ∧
      ListSyntax.elements line = ListSyntax.elements (joined (chars (flags ++ post))) := by
  rw [beforeFlag] at hpre ⊢
  rw [toList_joinList, toList_joinList, chars, List.append_assoc, List.map_append]
  by_cases hv : v = ""
  · rw [if_pos hv] at hpre ⊢
    refine ⟨joined (chars ([appended v flags] ++ post)), ?_, ?_⟩
    · exact ListSyntax.joined_append (fun h => hpre (List.map_eq_nil_iff.mp h)) (List.cons_ne_nil _ _)
    · have helements := elements_dropWhile flags (chars post)
      rw [← toList_appended_empty] at helements
      rw [hv, chars, chars, List.map_append, List.map_append]
      exact helements
  · rw [if_neg hv]
    refine ⟨joined (chars (flags ++ post)), ?_, rfl⟩
    have hvalue : (appended v flags).toList = joined (v.toList :: chars flags) := by
      have hne : chars flags ≠ [] := fun h => hflags (List.map_eq_nil_iff.mp h)
      rw [toList_appended hv hflags, ListSyntax.joined_cons _ hne]
    have hjoined := ListSyntax.joined_flatten (chars pre) (List.cons_ne_nil v.toList (chars flags))
      (chars post)
    have hbefore : chars (pre ++ [v]) ≠ [] := by simp [chars]
    have hbehind : chars (flags ++ post) ≠ [] := by simpa [chars] using fun h => absurd h hflags
    rw [← ListSyntax.joined_append hbefore hbehind]
    simpa [chars, hvalue] using hjoined

/-- What stands before a flag names a command, and leaves nothing open. -/
structure Started (isFile : String → Bool) (words : List String) : Prop where
  command : tclList (joinList words) ≠ []
  closed : IsList (joinList words).toList
  closed_line : IsList (commandLine isFile words).toList

/-- The command decides how the line begins, and nothing else changes. -/
theorem run_append {words args : List String} {line : List Char} (h : Started isFile words)
    (hargs : (joinList args).toList = (joinList words).toList ++ ' ' :: line) :
    run isFile args = run isFile words ++ (ListSyntax.elements line).map String.ofList := by
  have helements : tclList (joinList args) =
      tclList (joinList words) ++ (ListSyntax.elements line).map String.ofList := by
    rw [tclList, hargs, ListSyntax.elements_append h.closed rfl, List.map_append]
    rfl
  have hfirst : (tclList (joinList args)).head? = (tclList (joinList words)).head? := by
    rw [helements, List.head?_append_of_ne_nil _ h.command]
  have hline : (commandLine isFile args).toList =
      (commandLine isFile words).toList ++ ' ' :: line := by
    rw [commandLine, commandLine, hfirst]
    split
    · rw [String.toList_append, String.toList_append, hargs, List.append_assoc]
    · exact hargs
  rw [run, run, tclList, hline, ListSyntax.elements_append h.closed_line rfl, List.map_append]
  rfl

theorem toList_quote (str : String) : (quote str).toList = quoteIfNeeded str.toList :=
  String.toList_ofList

/-- A flag that is quoted for `CFlags`, in the compile command. -/
theorem run_quoted_iff {later : List (List String)} {str : String}
    (hfree : "C_FLAGS" ∉ p.fixedvars)
    (hstarted : Started isFile (beforeFlag pre (getDefine "C_FLAGS" p))) :
    run isFile (pre ++ [getDefine "C_FLAGS"
        (later.foldl (fun p args => cFlags args p) (cFlags [quote str] p))] ++ post) =
      run isFile (beforeFlag pre (getDefine "C_FLAGS" p)) ++ [str] ++
        tclList (joinList (flagValues later ++ post)) ↔ Quotable str.toList := by
  have hflags : getDefine "C_FLAGS"
      (later.foldl (fun p args => cFlags args p) (cFlags [quote str] p)) =
      appended (getDefine "C_FLAGS" p) (quote str :: flagValues later) :=
    getDefine_cFlags ([quote str] :: later) hfree
  have hpre : beforeFlag pre (getDefine "C_FLAGS" p) ≠ [] := by
    intro hnil
    exact hstarted.command (by rw [hnil]; rfl)
  obtain ⟨line, hline, helements⟩ :=
    joinList_flags post (quote str :: flagValues later) hpre (List.cons_ne_nil _ _)
  have hwords : chars (quote str :: flagValues later ++ post) =
      quoteIfNeeded str.toList :: chars (flagValues later ++ post) := by
    rw [List.cons_append, chars, List.map_cons, toList_quote]
    rfl
  have hclaimed : [str] ++ tclList (joinList (flagValues later ++ post)) =
      (str.toList :: ListSyntax.elements (joined (chars (flagValues later ++ post)))).map
        String.ofList := by
    rw [List.map_cons, String.ofList_toList, tclList, toList_joinList]
    rfl
  rw [hflags, run_append hstarted hline, helements, hwords, ListSyntax.joined_eq,
    List.append_assoc, List.append_cancel_left_eq, hclaimed, map_ofList_inj, elements_flag_iff]

/-- A list that is quoted. -/
theorem shellQuoteList_iff (argv : List String) :
    tclList (shellQuoteList argv) = argv ↔ ∀ str ∈ argv, Quotable str.toList := by
  have hquoted : chars (argv.map quote) = (chars argv).map quoteIfNeeded := by
    rw [chars, chars, List.map_map, List.map_map]
    exact List.map_congr_left fun str _ => toList_quote str
  have hread : tclList (shellQuoteList argv) =
      (ListSyntax.elements (joined ((chars argv).map quoteIfNeeded))).map String.ofList := by
    rw [tclList, shellQuoteList, toList_joinList, hquoted]
  have hstrings : (tclList (shellQuoteList argv) = argv) ↔
      ListSyntax.elements (joined ((chars argv).map quoteIfNeeded)) = chars argv := by
    rw [hread, ← map_ofList_inj, chars_ofList]
  rw [hstrings, elements_quoted_iff]
  exact List.forall_mem_map

/-- **Quoted flags.**  A flag that is quoted for `CFlags` is one word of the compile command, before
the words behind it, exactly where it is quotable; a list that is quoted is read back exactly where
all its strings are. -/
theorem quoted_flags (isFile : String → Bool) (pre post : List String) (later : List (List String))
    (p : Parse) (str : String) (argv : List String) :
    ("C_FLAGS" ∉ p.fixedvars → Started isFile (beforeFlag pre (getDefine "C_FLAGS" p)) →
      (run isFile (pre ++ [getDefine "C_FLAGS"
          (later.foldl (fun p args => cFlags args p) (cFlags [quote str] p))] ++ post) =
        run isFile (beforeFlag pre (getDefine "C_FLAGS" p)) ++ [str] ++
          tclList (joinList (flagValues later ++ post)) ↔ Quotable str.toList)) ∧
    (tclList (shellQuoteList argv) = argv ↔ ∀ str ∈ argv, Quotable str.toList) :=
  ⟨fun hfree hstarted => run_quoted_iff hfree hstarted, shellQuoteList_iff argv⟩

/-- A string with a blank and quotes, behind other flags. -/
theorem quoted_flags_version :
    run (fun _ => false) (["cc"] ++ [getDefine "C_FLAGS"
        ([["-O2"]].foldl (fun p args => cFlags args p)
          (cFlags [quote "-DV=\"v 1\""] { defines := AList.insert "C_FLAGS" ⟨"-g", .define⟩ ∅ }))] ++
        ["-c", "a.c"]) =
      ["cc", "-g"] ++ ["-DV=\"v 1\""] ++ ["-O2", "-c", "a.c"] := by
  have hstarted : Started (fun _ => false) (beforeFlag ["cc"] "-g") :=
    ⟨by decide, ⟨by decide, by decide⟩, ⟨by decide, by decide⟩⟩
  exact ((quoted_flags (fun _ => false) ["cc"] ["-c", "a.c"] [["-O2"]]
    { defines := AList.insert "C_FLAGS" ⟨"-g", .define⟩ ∅ } "-DV=\"v 1\"" []).1 (by decide)
      hstarted).mpr ⟨by decide, .inl (by decide)⟩

/-- White space other than blanks and tabs is not quoted. -/
theorem quoted_flags_newline :
    run (fun _ => false) (["cc"] ++ [getDefine "C_FLAGS"
        (cFlags [quote "-DV=1\n2"] { defines := AList.insert "C_FLAGS" ⟨"-g", .define⟩ ∅ })] ++
        ["-c", "a.c"]) ≠
      ["cc", "-g"] ++ ["-DV=1\n2"] ++ ["-c", "a.c"] ∧
    tclList (shellQuoteList ["-DV=1\n2"]) ≠ ["-DV=1\n2"] := by
  constructor <;> decide

end

end Tmake.Quoting
