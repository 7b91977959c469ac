import Mathlib.Data.List.Forall2
import TmakeProof.ListSyntax

/-! # Lists as strings

A list is written as a string by putting its elements behind each other, as they are,
in braces or with backslashes.  What is written is read as the element, and it leaves
nothing open, so the string is read as the list (`elements_listText`).
-/
namespace ListSyntax

/-! ## The writer -/

/-- How an element is written. -/
inductive Quoting where
  | simple | brace | quote

def listSpecial (c : Char) : Bool :=
  isSpace c || c = '$' || c = '"' || c = '[' || c = ']' || c = ';' || c = '\\'

/-- The braces that are open, and the brackets; `none` where the element has to be quoted. -/
def levels : List Char → Nat → Int → Option (Nat × Int)
  | [], level, blevel => some (level, blevel)
  | '{' :: cs, level, blevel => levels cs (level + 1) blevel
  | '}' :: cs, level, blevel => if level = 0 then none else levels cs (level - 1) blevel
  | '[' :: cs, level, blevel => levels cs level (blevel + 1)
  | ']' :: cs, level, blevel => levels cs level (blevel - 1)
  | '\\' :: '\n' :: _, _, _ => none
  | '\\' :: _ :: cs, level, blevel => levels cs level blevel
  | _ :: cs, level, blevel => levels cs level blevel

/-- The part of `ListElementQuotingType` that looks at the braces. -/
def testBrace (cs : List Char) (trySimple : Bool) : Quoting :=
  if cs.getLast? = some '\\' then .quote
  else
    match levels cs 0 0 with
    | none => .quote
    | some (level, blevel) =>
      if blevel < 0 || level ≠ 0 then .quote
      else if trySimple && !cs.any listSpecial then .simple
      else .brace

def quotingType (cs : List Char) : Quoting :=
  if cs.isEmpty then .brace
  else if cs.head? = some '"' || cs.head? = some '{' then testBrace cs false
  else
    match cs.find? fun c => listSpecial c || c = '{' || c = '}' with
    | none => .simple
    | some c => testBrace cs (!listSpecial c)

def backslashQuote (cs : List Char) : List Char :=
  cs.flatMap fun c =>
    if c = '\n' then ['\\', 'n']
    else if c = '\r' then ['\\', 'r']
    else if c = '\t' then ['\\', 't']
    else if c = '\x0c' then ['\\', 'f']
    else if c = '\x0b' then ['\\', 'v']
    else if listSpecial c || c = '{' || c = '}' then ['\\', c]
    else [c]

/-- One element; at the beginning of the list a `#` is hidden. -/
def elementText (first : Bool) (cs : List Char) : List Char :=
  match quotingType cs with
  | .simple => if first && cs.head? = some '#' then '{' :: (cs ++ ['}']) else cs
  | .brace => '{' :: (cs ++ ['}'])
  | .quote => (if first && cs.head? = some '#' then ['\\'] else []) ++ backslashQuote cs

/-- A list as a string. -/
def listText : List (List Char) → List Char
  | [] => []
  | e :: es => joined (elementText true e :: es.map (elementText false))

/-! ## Reading a text -/

section
variable {cs w : List Char} {c : Char} {p : Piece} {ps : List Piece}

/-- A piece that is read as a character of a word, wherever it stands in it. -/
def Piece.Stands (p : Piece) (c : Char) : Prop :=
  match p with
  | plain d => d = c ∧ isSpace d = false ∧ d ≠ '"' ∧ d ≠ '{' ∧ d ≠ '\\'
  | escaped d => ∀ qs, escape d qs = (c, 0)

theorem decode_stands (h : List.Forall₂ Piece.Stands ps cs) : decode 0 ps = cs := by
  induction h with
  | nil => rfl
  | @cons p c ps cs hp _ ih =>
    cases p with
    | plain d => rw [decode, ih, hp.1]
    | escaped d => rw [decode, hp ps, ih]

theorem scan_word_stands (h : List.Forall₂ Piece.Stands ps cs) (qs : List Piece) :
    scan (.word qs) ps = ([], .word (qs ++ ps)) := by
  induction h generalizing qs with
  | nil => simp [scan]
  | @cons p c ps cs hp _ ih =>
    have hstep : (State.word qs).step p = (.word (qs ++ [p]), none) := by
      cases p with
      | plain d => simp [State.step, hp.2.1]
      | escaped d => rfl
    rw [scan, hstep, ih]
    simp

theorem scan_stands (h : List.Forall₂ Piece.Stands ps cs) (hne : ps ≠ []) :
    scan .between ps = ([], .word ps) := by
  cases h with
  | nil => exact absurd rfl hne
  | @cons p c ps cs hp hps =>
    have hstep : State.between.step p = (.word [p], none) := by
      cases p with
      | plain d => simp [State.step, hp.2.1, hp.2.2.1, hp.2.2.2.1]
      | escaped d => rfl
    rw [scan, hstep, scan_word_stands hps]
    rfl

theorem backslash_notMem_stands (h : List.Forall₂ Piece.Stands ps cs) : .plain '\\' ∉ ps := by
  induction h with
  | nil => exact List.not_mem_nil
  | @cons p c ps cs hp _ ih =>
    rw [List.mem_cons, not_or]
    refine ⟨?_, ih⟩
    rintro rfl
    exact hp.2.2.2.2 rfl

/-- A text that is read as one element, with nothing left open. -/
def Reads (text cs : List Char) : Prop := IsList text ∧ elements text = [cs]

theorem reads_stands {text : List Char} (h : List.Forall₂ Piece.Stands (pieces text) cs)
    (hne : pieces text ≠ []) : Reads text cs := by
  refine ⟨⟨?_, backslash_notMem_stands h⟩, ?_⟩
  · rw [scan_stands h hne]
    rfl
  · rw [elements, readOn, scan_stands h hne, State.finish, decode_stands h]
    rfl

theorem Word.reads (h : Word w) (hbackslash : '\\' ∉ w) : Reads w w := by
  have hpieces : pieces w = w.map .plain :=
    pieces_plain.mpr fun hmem => hbackslash ((List.dropLast_sublist w).subset hmem)
  refine ⟨⟨?_, ?_⟩, ?_⟩
  · rw [hpieces, h.scan]
    rfl
  · rw [hpieces]
    simpa using hbackslash
  · rw [elements, hpieces, readOn, h.scan, State.finish, decode_plain]
    rfl

/-! ## Backslashes -/

/-- A character that is quoted with its own backslash stands for itself. -/
theorem escape_special (h : (listSpecial c || c = '{' || c = '}') = true)
    (hspace : isSpace c = true → c = ' ') (qs : List Piece) : escape c qs = (c, 0) := by
  by_cases hc : isSpace c = true
  · rw [hspace hc]
    rfl
  · simp only [listSpecial, hc, Bool.or_eq_true, decide_eq_true_eq, false_or, Bool.false_eq_true] at h
    rcases h with (((((((h | h) | h) | h) | h) | h) | h) | h)
    all_goals (rw [h]; rfl)

/-- The piece that a character is written as, with backslashes. -/
theorem exists_piece_backslashQuote (c : Char) :
    ∃ p : Piece, p.Stands c ∧
      ∀ cs, pieces (backslashQuote (c :: cs)) = p :: pieces (backslashQuote cs) := by
  simp only [backslashQuote, List.flatMap_cons]
  split_ifs with hn hr ht hf hv hspecial
  · exact ⟨.escaped 'n', fun qs => hn ▸ rfl, fun cs => rfl⟩
  · exact ⟨.escaped 'r', fun qs => hr ▸ rfl, fun cs => rfl⟩
  · exact ⟨.escaped 't', fun qs => ht ▸ rfl, fun cs => rfl⟩
  · exact ⟨.escaped 'f', fun qs => hf ▸ rfl, fun cs => rfl⟩
  · exact ⟨.escaped 'v', fun qs => hv ▸ rfl, fun cs => rfl⟩
  · refine ⟨.escaped c, escape_special hspecial fun hspace => ?_, fun cs => rfl⟩
    simpa [isSpace, hn, hr, ht, hf, hv] using hspace
  · simp only [listSpecial, Bool.or_eq_true, decide_eq_true_eq, not_or] at hspecial
    obtain ⟨⟨⟨⟨⟨⟨⟨⟨hspace, -⟩, hquote⟩, -⟩, -⟩, -⟩, hbackslash⟩, hbrace⟩, -⟩ := hspecial
    exact ⟨.plain c, ⟨rfl, Bool.eq_false_iff.mpr hspace, hquote, hbrace, hbackslash⟩,
      fun cs => pieces_cons hbackslash _⟩

theorem stands_backslashQuote (cs : List Char) :
    List.Forall₂ Piece.Stands (pieces (backslashQuote cs)) cs := by
  induction cs with
  | nil => exact .nil
  | cons c cs ih =>
    obtain ⟨p, hp, hpieces⟩ := exists_piece_backslashQuote c
    rw [hpieces]
    exact .cons hp ih

theorem reads_backslashQuote (hne : cs ≠ []) : Reads (backslashQuote cs) cs := by
  have hstands := stands_backslashQuote cs
  refine reads_stands hstands fun hnil => hne ?_
  rw [hnil] at hstands
  cases hstands
  rfl

/-! ## Braces -/

theorem backslash_notMem_pieces (h : cs.getLast? ≠ some '\\') : .plain '\\' ∉ pieces cs := by
  fun_induction pieces cs with
  | case1 => exact List.not_mem_nil
  | case2 c =>
    intro hmem
    have := List.mem_singleton.mp hmem
    injection this with hc
    exact h (hc ▸ rfl)
  | case3 d s ih =>
    rw [List.mem_cons, not_or]
    refine ⟨by simp, ih fun hlast => h ?_⟩
    cases s with
    | nil => cases hlast
    | cons e s => exact hlast
  | case4 c d s hc ih =>
    rw [List.mem_cons, not_or]
    refine ⟨?_, ih h⟩
    intro heq
    injection heq with heq
    exact hc heq.symm

theorem getLast?_tail (h : (c :: cs).getLast? ≠ some '\\') : cs.getLast? ≠ some '\\' := by
  cases cs with
  | nil => nofun
  | cons d cs => exact h

theorem scan_braced_cons {level : Nat} (hopen : p ≠ .plain '{') (hclose : p ≠ .plain '}')
    (qs : List Piece) : scan (.braced level qs) (p :: ps) = scan (.braced level (qs ++ [p])) ps := by
  simp [scan, State.step, hopen, hclose]

/-- The braces that are counted are those that the reader sees. -/
theorem scan_braced {level level' : Nat} {b b' : Int} (h : levels cs level b = some (level', b'))
    (hlast : cs.getLast? ≠ some '\\') (qs : List Piece) :
    scan (.braced level qs) (pieces cs) = ([], .braced level' (qs ++ pieces cs)) := by
  fun_induction levels cs level b generalizing qs with
  | case1 level b =>
    cases h
    rw [pieces, scan, List.append_nil]
  | case2 cs level b ih =>
    have hopen : (State.braced level qs).step (.plain '{') =
        (.braced (level + 1) (qs ++ [.plain '{']), none) := rfl
    rw [pieces_cons (by decide), scan, hopen, ih h (getLast?_tail hlast)]
    simp
  | case3 cs b => cases h
  | case4 cs level b hlevel ih =>
    obtain ⟨level, rfl⟩ := Nat.exists_eq_succ_of_ne_zero hlevel
    have hclose : (State.braced (level + 1) qs).step (.plain '}') =
        (.braced level (qs ++ [.plain '}']), none) := rfl
    rw [pieces_cons (by decide), scan, hclose, ← Nat.succ_sub_one level, ih h (getLast?_tail hlast)]
    simp
  | case5 cs level b ih =>
    rw [pieces_cons (by decide), scan_braced_cons (by decide) (by decide), ih h (getLast?_tail hlast)]
    simp
  | case6 cs level b ih =>
    rw [pieces_cons (by decide), scan_braced_cons (by decide) (by decide), ih h (getLast?_tail hlast)]
    simp
  | case7 cs level b => cases h
  | case8 d cs level b hd ih =>
    rw [pieces_escape, scan_braced_cons (by simp) (by simp),
      ih h (getLast?_tail (getLast?_tail hlast))]
    simp
  | case9 c cs level b hopen hclose _ _ _ hescape ih =>
    -- a backslash takes a character along, unless it is the last one
    have hc : c ≠ '\\' := by
      rintro rfl
      cases cs with
      | nil => exact hlast rfl
      | cons d cs => exact hescape d cs rfl rfl
    rw [pieces_cons hc, scan_braced_cons (by simpa using hopen) (by simpa using hclose),
      ih h (getLast?_tail hlast)]
    simp

/-- An element in braces. -/
theorem reads_braced {b : Int} (hlast : cs.getLast? ≠ some '\\') (h : levels cs 0 0 = some (0, b)) :
    Reads ('{' :: (cs ++ ['}'])) cs := by
  have hpieces : pieces ('{' :: (cs ++ ['}'])) = .plain '{' :: (pieces cs ++ [.plain '}']) := by
    rw [pieces_cons (by decide), pieces_append (backslash_notMem_pieces hlast)]
    rfl
  have hopen : State.between.step (.plain '{') = (.braced 0 [], none) := rfl
  have hclose : (State.braced 0 (pieces cs)).step (.plain '}') = (.between, some cs) := by
    rw [State.step, if_neg (by decide), if_pos rfl, raws_pieces]
  have hscan : scan .between (pieces ('{' :: (cs ++ ['}']))) = ([cs], .between) := by
    simp [hpieces, scan, hopen, scan_append, scan_braced h hlast, hclose]
  refine ⟨⟨by rw [hscan]; rfl, ?_⟩, by rw [elements, readOn, hscan]; rfl⟩
  rw [hpieces, List.mem_cons, List.mem_append, not_or, not_or]
  exact ⟨by decide, backslash_notMem_pieces hlast, by decide⟩

/-! ## Elements -/

theorem levels_unmarked (h : ∀ c ∈ cs, (listSpecial c || c = '{' || c = '}') = false) (level : Nat)
    (b : Int) : levels cs level b = some (level, b) := by
  have hno (c : Char) (cs : List Char) (hc : (listSpecial c || c = '{' || c = '}') = true)
      (h : ∀ d ∈ c :: cs, (listSpecial d || d = '{' || d = '}') = false) : False :=
    Bool.false_ne_true ((h c List.mem_cons_self).symm.trans hc)
  fun_induction levels cs level b with
  | case1 level b => rfl
  | case2 cs level b ih => exact (hno '{' cs (by decide) h).elim
  | case3 cs b => exact (hno '}' cs (by decide) h).elim
  | case4 cs level b hlevel ih => exact (hno '}' cs (by decide) h).elim
  | case5 cs level b ih => exact (hno '[' cs (by decide) h).elim
  | case6 cs level b ih => exact (hno ']' cs (by decide) h).elim
  | case7 cs level b => exact (hno '\\' _ (by decide) h).elim
  | case8 d cs level b hd ih => exact (hno '\\' _ (by decide) h).elim
  | case9 c cs level b _ _ _ _ _ _ ih => exact ih fun d hd => h d (List.mem_cons_of_mem c hd)

/-- An element that braces may be put around. -/
def Balanced (cs : List Char) : Prop := cs.getLast? ≠ some '\\' ∧ ∃ b, levels cs 0 0 = some (0, b)

theorem Balanced.reads (h : Balanced cs) : Reads ('{' :: (cs ++ ['}'])) cs := by
  obtain ⟨hlast, b, hlevels⟩ := h
  exact reads_braced hlast hlevels

theorem testBrace_balanced {trySimple : Bool} (h : testBrace cs trySimple ≠ .quote) :
    Balanced cs := by
  rw [testBrace] at h
  split at h
  · exact absurd rfl h
  · rename_i hlast
    split at h
    · exact absurd rfl h
    · rename_i level b hlevels
      by_cases hopen : (b < 0 || level ≠ 0) = true
      · rw [if_pos hopen] at h
        exact absurd rfl h
      · have hlevel : level = 0 := by
          simp only [Bool.or_eq_true, decide_eq_true_eq, not_or, ne_eq, not_not] at hopen
          exact hopen.2
        exact ⟨hlast, b, hlevel ▸ hlevels⟩

theorem testBrace_simple {trySimple : Bool} (h : testBrace cs trySimple = .simple) :
    trySimple = true ∧ ∀ c ∈ cs, listSpecial c = false := by
  rw [testBrace] at h
  split at h
  · cases h
  · split at h
    · cases h
    · split_ifs at h with hopen hsimple
      simpa using hsimple

theorem quotingType_balanced (h : quotingType cs ≠ .quote) : Balanced cs := by
  rw [quotingType] at h
  split_ifs at h with hnil hhead
  · rw [List.isEmpty_iff.mp hnil]
    exact ⟨nofun, 0, rfl⟩
  · exact testBrace_balanced h
  · split at h
    · -- no character is special, so there are no braces either
      rename_i hnone
      have hunmarked (c : Char) (hc : c ∈ cs) : (listSpecial c || c = '{' || c = '}') = false :=
        Bool.eq_false_iff.mpr (List.find?_eq_none.mp hnone c hc)
      refine ⟨fun hlast => ?_, 0, levels_unmarked hunmarked 0 0⟩
      exact absurd (hunmarked '\\' (List.mem_of_getLast? hlast)) (by decide)
    · exact testBrace_balanced h

/-- In an element that stands for itself no character is special. -/
theorem quotingType_unmarked (h : quotingType cs = .simple) : ∀ c ∈ cs, listSpecial c = false := by
  rw [quotingType] at h
  split_ifs at h with hnil hhead
  · exact absurd (testBrace_simple h).1 Bool.false_ne_true
  · split at h
    · rename_i hnone
      intro c hc
      have := List.find?_eq_none.mp hnone c hc
      simp only [Bool.or_eq_true, not_or, Bool.not_eq_true] at this
      exact this.1.1
    · exact (testBrace_simple h).2

theorem quotingType_simple (h : quotingType cs = .simple) : Word cs ∧ '\\' ∉ cs := by
  have hno := quotingType_unmarked h
  have hhead : cs ≠ [] ∧ cs.head? ≠ some '"' ∧ cs.head? ≠ some '{' := by
    rw [quotingType] at h
    split_ifs at h with hnil hhead
    · exact absurd (testBrace_simple h).1 Bool.false_ne_true
    · exact ⟨fun heq => hnil (heq ▸ rfl), by simpa using hhead⟩
  refine ⟨⟨hhead.1, fun c hc => ?_, hhead.2⟩, fun hmem => absurd (hno '\\' hmem) (by decide)⟩
  have := hno c hc
  simp only [listSpecial, Bool.or_eq_false_iff] at this
  exact this.1.1.1.1.1.1

/-- An element is read back, wherever in the list it is. -/
theorem reads_elementText (first : Bool) (cs : List Char) : Reads (elementText first cs) cs := by
  rw [elementText]
  split
  · rename_i hsimple
    split
    · exact (quotingType_balanced (by rw [hsimple]; nofun)).reads
    · obtain ⟨hword, hbackslash⟩ := quotingType_simple hsimple
      exact hword.reads hbackslash
  · rename_i hbrace
    exact (quotingType_balanced (by rw [hbrace]; nofun)).reads
  · rename_i hquote
    have hne : cs ≠ [] := by
      rintro rfl
      cases hquote
    split_ifs with hhash
    · -- the backslash makes no difference to a `#`
      obtain ⟨cs, rfl⟩ : ∃ ds, cs = '#' :: ds := by
        cases cs with
        | nil => exact absurd rfl hne
        | cons c cs => simpa using (Bool.and_eq_true_iff.mp hhash).2
      exact reads_stands (.cons (fun qs => rfl) (stands_backslashQuote cs)) (List.cons_ne_nil _ _)
    · exact reads_backslashQuote hne

theorem reads_joined {ts es : List (List Char)} (h : List.Forall₂ Reads ts es) :
    IsList (joined ts) ∧ elements (joined ts) = es := by
  induction h with
  | nil => exact ⟨IsList.nil, rfl⟩
  | @cons t e ts es ht hts ih =>
    by_cases hnil : ts = []
    · rw [hnil] at hts ⊢
      cases hts
      exact ht
    · rw [joined_cons t hnil, elements_append ht.1 rfl, ht.2, ih.2]
      exact ⟨ht.1.append rfl ih.1, rfl⟩

/-- **A list as a string.**  It is read as the list, and nothing is left open. -/
theorem elements_listText (es : List (List Char)) :
    IsList (listText es) ∧ elements (listText es) = es := by
  cases es with
  | nil => exact ⟨IsList.nil, rfl⟩
  | cons e es =>
    have hrest : List.Forall₂ Reads (es.map (elementText false)) es :=
      List.forall₂_map_left_iff.mpr (List.forall₂_same.mpr fun e _ => reads_elementText false e)
    exact reads_joined (.cons (reads_elementText true e) hrest)

end
end ListSyntax
