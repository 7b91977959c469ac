import Mathlib.Data.List.Basic

/-! # Strings as lists

A string is read as a list: words that white space separates, and elements in quotes
or in braces.  A backslash takes the character behind it along, so the string is
first cut into `pieces`, and the reader takes one piece after the other.  Elements
never have more characters than what they are read from; where none is lost the
string is nothing but words (`elements_exact`).
-/
namespace ListSyntax

/-! ## The reader -/

/-- A character, or one with a backslash before it. -/
inductive Piece where
  | plain (c : Char)
  | escaped (c : Char)
deriving DecidableEq

/-- The characters of a piece as they are written. -/
def Piece.raw : Piece → List Char
  | plain c => [c]
  | escaped c => ['\\', c]

def raws (ps : List Piece) : List Char := ps.flatMap Piece.raw

/-- A backslash with nothing behind it stands for itself. -/
def pieces : List Char → List Piece
  | [] => []
  | [c] => [.plain c]
  | c :: d :: cs => if c = '\\' then .escaped d :: pieces cs else .plain c :: pieces (d :: cs)

def isSpace (c : Char) : Bool :=
  c = ' ' || c = '\t' || c = '\n' || c = '\x0b' || c = '\x0c' || c = '\r'

def hexDigit (c : Char) : Option Nat :=
  if '0' ≤ c && c ≤ '9' then some (c.toNat - '0'.toNat)
  else if 'a' ≤ c && c ≤ 'f' then some (c.toNat - 'a'.toNat + 10)
  else if 'A' ≤ c && c ≤ 'F' then some (c.toNat - 'A'.toNat + 10)
  else none

def octDigit (c : Char) : Option Nat :=
  if '0' ≤ c && c ≤ '7' then some (c.toNat - '0'.toNat) else none

/-- At most `max` digits: their value, and how many there are. -/
def digits (base : Nat) (digit : Char → Option Nat) : Nat → List Piece → Nat → Nat → Nat × Nat
  | max + 1, .plain c :: ps, val, k =>
    match digit c with
    | some d => digits base digit max ps (base * val + d) (k + 1)
    | none => (val, k)
  | _, _, val, k => (val, k)

/-- The character with the code that follows, or the letter where no code does. -/
def coded (letter : Char) (max : Nat) (ps : List Piece) : Char × Nat :=
  let (val, k) := digits 16 hexDigit max ps 0 0
  if k = 0 then (letter, 0) else (Char.ofNat val, k)

/-- A code in braces. -/
def codedBrace (ps : List Piece) : Char × Nat :=
  let (val, k) := digits 16 hexDigit 6 ps 0 0
  if k = 0 || 0x1fffff < val || (ps.drop k).head? ≠ some (.plain '}') then ('u', 0)
  else (Char.ofNat val, k + 2)

/-- What a backslash and a character stand for, and how many of the pieces behind belong to them. -/
def escape (c : Char) (ps : List Piece) : Char × Nat :=
  if c = 'a' then ('\x07', 0)
  else if c = 'b' then ('\x08', 0)
  else if c = 'f' then ('\x0c', 0)
  else if c = 'n' then ('\n', 0)
  else if c = 'r' then ('\r', 0)
  else if c = 't' then ('\t', 0)
  else if c = 'v' then ('\x0b', 0)
  else if c = 'x' then coded 'x' 2 ps
  else if c = 'U' then coded 'U' 8 ps
  else if c = 'u' then
    if ps.head? = some (.plain '{') then codedBrace ps.tail else coded 'u' 4 ps
  else if c = '\x00' then ('\\', 0)
  else if c = '\n' then
    (' ', (ps.takeWhile fun p => p = .plain ' ' || p = .plain '\t').length)
  else if (octDigit c).isSome then
    let (val, k) := digits 8 octDigit 3 (.plain c :: ps) 0 0
    (Char.ofNat (val % 256), k - 1)
  else (c, 0)

/-- The characters that pieces stand for, where the first `skip` of them are read already. -/
def decode : Nat → List Piece → List Char
  | _, [] => []
  | skip + 1, _ :: ps => decode skip ps
  | 0, .plain c :: ps => c :: decode 0 ps
  | 0, .escaped c :: ps => (escape c ps).1 :: decode (escape c ps).2 ps

/-- Where the reader is, with what it has read of an element. -/
inductive State where
  | between
  | word (ps : List Piece)
  | quoted (ps : List Piece)
  | braced (level : Nat) (ps : List Piece)

/-- One piece more, and the element that it ends. -/
def State.step : State → Piece → State × Option (List Char)
  | between, p =>
    match p with
    | .plain c =>
      if isSpace c then (between, none)
      else if c = '"' then (quoted [], none)
      else if c = '{' then (braced 0 [], none)
      else (word [p], none)
    | .escaped _ => (word [p], none)
  | word ps, p =>
    match p with
    | .plain c => if isSpace c then (between, some (decode 0 ps)) else (word (ps ++ [p]), none)
    | .escaped _ => (word (ps ++ [p]), none)
  | quoted ps, p =>
    if p = .plain '"' then (between, some (decode 0 ps)) else (quoted (ps ++ [p]), none)
  | braced level ps, p =>
    if p = .plain '{' then (braced (level + 1) (ps ++ [p]), none)
    else if p = .plain '}' then
      match level with
      | 0 => (between, some (raws ps))
      | level + 1 => (braced level (ps ++ [p]), none)
    else (braced level (ps ++ [p]), none)

/-- The element that the end of the string ends: a quote or a brace need not be closed. -/
def State.finish : State → Option (List Char)
  | between => none
  | word ps => some (decode 0 ps)
  | quoted ps => some (decode 0 ps)
  | braced _ ps => some (raws ps)

/-- Nothing is left open. -/
def State.isClosed : State → Bool
  | between => true
  | word _ => true
  | quoted _ => false
  | braced _ _ => false

def scan : State → List Piece → List (List Char) × State
  | s, [] => ([], s)
  | s, p :: ps => ((s.step p).2.toList ++ (scan (s.step p).1 ps).1, (scan (s.step p).1 ps).2)

def readOn (s : State) (ps : List Piece) : List (List Char) :=
  (scan s ps).1 ++ (scan s ps).2.finish.toList

/-- The elements of a string. -/
def elements (cs : List Char) : List (List Char) := readOn .between (pieces cs)

/-- A list whose quotes and braces are closed, and with nothing that a backslash leaves open. -/
def IsList (cs : List Char) : Prop :=
  (scan .between (pieces cs)).2.isClosed = true ∧ .plain '\\' ∉ pieces cs

instance (cs : List Char) : Decidable (IsList cs) := inferInstanceAs (Decidable (_ ∧ _))

/-- `join`: blanks between the elements. -/
def joined : List (List Char) → List Char
  | [] => []
  | [w] => w
  | w :: w' :: ws => w ++ ' ' :: joined (w' :: ws)

/-! ## Reading on -/

section
variable {s t : List Char} {c : Char} {st : State} {ps qs : List Piece}

@[simp] theorem readOn_nil (st : State) : readOn st [] = st.finish.toList := rfl

theorem readOn_cons (st : State) (p : Piece) (ps : List Piece) :
    readOn st (p :: ps) = (st.step p).2.toList ++ readOn (st.step p).1 ps := by
  simp [readOn, scan]

theorem scan_append (st : State) (ps qs : List Piece) :
    scan st (ps ++ qs) =
      ((scan st ps).1 ++ (scan (scan st ps).2 qs).1, (scan (scan st ps).2 qs).2) := by
  induction ps generalizing st with
  | nil => rfl
  | cons p ps ih => simp [scan, ih]

theorem readOn_append (st : State) (ps qs : List Piece) :
    readOn st (ps ++ qs) = (scan st ps).1 ++ readOn (scan st ps).2 qs := by
  rw [readOn, scan_append, readOn, List.append_assoc]

@[simp] theorem pieces_cons (h : c ≠ '\\') (s : List Char) :
    pieces (c :: s) = .plain c :: pieces s := by
  cases s with
  | nil => rfl
  | cons d s => rw [pieces, if_neg h]

@[simp] theorem pieces_escape (c : Char) (s : List Char) :
    pieces ('\\' :: c :: s) = .escaped c :: pieces s := rfl

theorem pieces_append (h : .plain '\\' ∉ pieces s) (t : List Char) :
    pieces (s ++ t) = pieces s ++ pieces t := by
  fun_induction pieces s with
  | case1 => rfl
  | case2 c =>
    have hc : c ≠ '\\' := fun hc => h (hc ▸ List.mem_singleton_self _)
    exact pieces_cons hc t
  | case3 d s ih =>
    have := ih fun hmem => h (List.mem_cons_of_mem _ hmem)
    rw [List.cons_append, List.cons_append, pieces_escape, this]
    rfl
  | case4 c d s hc ih =>
    have := ih fun hmem => h (List.mem_cons_of_mem _ hmem)
    rw [List.cons_append, pieces_cons hc, this]
    rfl

theorem raws_pieces (s : List Char) : raws (pieces s) = s := by
  fun_induction pieces s with
  | case1 => rfl
  | case2 c => rfl
  | case3 d s ih => exact congrArg (['\\', d] ++ ·) ih
  | case4 c d s hc ih => exact congrArg ([c] ++ ·) ih

/-- Where there are no escapes, a backslash can only be the last character. -/
theorem pieces_plain : pieces s = s.map .plain ↔ '\\' ∉ s.dropLast := by
  fun_induction pieces s with
  | case1 => simp
  | case2 c => simp
  | case3 d s ih => simp
  | case4 c d s hc ih =>
    rw [List.map_cons, List.cons_inj_right, ih, List.dropLast_cons_cons, List.mem_cons, not_or]
    exact ⟨fun h => ⟨Ne.symm hc, h⟩, fun h => h.2⟩

theorem isSpace_ne (h : isSpace c = true) : c ≠ '\\' := by
  rintro rfl
  cases h

theorem step_space (h : isSpace c = true) (hst : st.isClosed = true) :
    st.step (.plain c) = (.between, st.finish) := by
  cases st with
  | between => simp [State.step, State.finish, h]
  | word ps => simp [State.step, State.finish, h]
  | quoted ps => cases hst
  | braced level ps => cases hst

theorem scan_space (h : IsList s) (hc : isSpace c = true) (t : List Char) :
    scan .between (pieces (s ++ c :: t)) =
      (elements s ++ (scan .between (pieces t)).1, (scan .between (pieces t)).2) := by
  rw [pieces_append h.2, pieces_cons (isSpace_ne hc), scan_append, scan, step_space hc h.1,
    elements, readOn, List.append_assoc]

/-- Behind a list and white space, a string is read on its own. -/
theorem elements_append (h : IsList s) (hc : isSpace c = true) (t : List Char) :
    elements (s ++ c :: t) = elements s ++ elements t := by
  rw [elements, readOn, scan_space h hc, List.append_assoc]
  rfl

theorem IsList.append (h : IsList s) (hc : isSpace c = true) (ht : IsList t) :
    IsList (s ++ c :: t) := by
  refine ⟨by rw [scan_space h hc]; exact ht.1, ?_⟩
  rw [pieces_append h.2, pieces_cons (isSpace_ne hc), List.mem_append, List.mem_cons, not_or, not_or]
  refine ⟨h.2, fun heq => isSpace_ne hc ?_, ht.2⟩
  injection heq with heq
  exact heq.symm

theorem IsList.nil : IsList [] := ⟨rfl, List.not_mem_nil⟩

/-! ## Words -/

/-- Characters that are read as one word, as far as no backslash is among them. -/
structure Word (w : List Char) : Prop where
  ne_nil : w ≠ []
  notSpace : ∀ c ∈ w, isSpace c = false
  head_ne : w.head? ≠ some '"' ∧ w.head? ≠ some '{'

/-- Lists of words, with no backslash but at the very end. -/
def Legible (ws : List (List Char)) : Prop :=
  (∀ w ∈ ws, Word w) ∧ '\\' ∉ (joined ws).dropLast

theorem word_iff {w : List Char} : Word w ↔
    (!w.isEmpty && w.all (fun c => !isSpace c)) = true ∧
      w.head? ≠ some '"' ∧ w.head? ≠ some '{' := by
  refine ⟨fun h => ⟨?_, h.head_ne⟩, fun h => ⟨?_, ?_, h.2⟩⟩
  · simpa using ⟨h.ne_nil, h.notSpace⟩
  · rintro rfl
    exact absurd h.1 (by decide)
  · simpa using (Bool.and_eq_true_iff.mp h.1).2

instance (w : List Char) : Decidable (Word w) := decidable_of_iff _ word_iff.symm

instance (ws : List (List Char)) : Decidable (Legible ws) :=
  inferInstanceAs (Decidable ((∀ w ∈ ws, Word w) ∧ '\\' ∉ (joined ws).dropLast))

theorem decode_plain (s : List Char) : decode 0 (s.map .plain) = s := by
  induction s with
  | nil => rfl
  | cons c s ih => exact congrArg (c :: ·) ih

theorem scan_word (h : ∀ c ∈ s, isSpace c = false) (ps : List Piece) :
    scan (.word ps) (s.map .plain) = ([], .word (ps ++ s.map .plain)) := by
  induction s generalizing ps with
  | nil => simp [scan]
  | cons c s ih =>
    have hc := h c List.mem_cons_self
    have hs := ih (fun d hd => h d (List.mem_cons_of_mem c hd)) (ps ++ [.plain c])
    simp [scan, State.step, hc, hs]

theorem Word.scan {w : List Char} (h : Word w) :
    scan .between (w.map .plain) = ([], .word (w.map .plain)) := by
  obtain ⟨c, w, rfl⟩ := List.exists_cons_of_ne_nil h.ne_nil
  have hc := h.notSpace c List.mem_cons_self
  have hw := scan_word (fun d hd => h.notSpace d (List.mem_cons_of_mem c hd)) [.plain c]
  have hquote : c ≠ '"' := fun hc => h.head_ne.1 (hc ▸ rfl)
  have hbrace : c ≠ '{' := fun hc => h.head_ne.2 (hc ▸ rfl)
  simp [ListSyntax.scan, State.step, hc, hquote, hbrace, hw]

/-- What stands behind a word that others follow. -/
def tailText : List (List Char) → List Char
  | [] => []
  | w :: ws => ' ' :: joined (w :: ws)

theorem joined_eq (w : List Char) (ws : List (List Char)) :
    joined (w :: ws) = w ++ tailText ws := by
  cases ws with
  | nil => exact (List.append_nil w).symm
  | cons w' ws => rfl

/-- A reader with nothing open goes on with the words behind. -/
theorem readOn_tailText (st : State) (hst : st.isClosed = true) (ws : List (List Char)) :
    readOn st (pieces (tailText ws)) = st.finish.toList ++ elements (joined ws) := by
  cases ws with
  | nil => exact (List.append_nil _).symm
  | cons w ws =>
    rw [tailText, pieces_cons (by decide), readOn_cons, step_space (by decide) hst]
    rfl

/-- The words behind a list are read on their own. -/
theorem elements_tailText (h : IsList s) (ws : List (List Char)) :
    elements (s ++ tailText ws) = elements s ++ elements (joined ws) := by
  cases ws with
  | nil => rw [tailText, List.append_nil]; exact (List.append_nil _).symm
  | cons w ws => exact elements_append h (by decide) _

theorem joined_cons (w : List Char) {ws : List (List Char)} (h : ws ≠ []) :
    joined (w :: ws) = w ++ ' ' :: joined ws := by
  cases ws with
  | nil => exact absurd rfl h
  | cons w' ws => rfl

theorem joined_append {vs ws : List (List Char)} (hvs : vs ≠ []) (hws : ws ≠ []) :
    joined (vs ++ ws) = joined vs ++ ' ' :: joined ws := by
  induction vs with
  | nil => exact absurd rfl hvs
  | cons v vs ih =>
    by_cases h : vs = []
    · rw [h]
      exact joined_cons v hws
    · rw [List.cons_append, joined_cons v (by simp [h]), ih h, joined_cons v h, List.append_assoc,
        List.cons_append]

/-- Joining what is joined joins it all. -/
theorem joined_flatten (us : List (List Char)) {vs : List (List Char)} (hvs : vs ≠ [])
    (ws : List (List Char)) : joined (us ++ joined vs :: ws) = joined (us ++ (vs ++ ws)) := by
  induction us with
  | nil =>
    by_cases hws : ws = []
    · rw [hws, List.append_nil]
      rfl
    · rw [List.nil_append, List.nil_append, joined_cons _ hws, joined_append hvs hws]
  | cons u us ih =>
    rw [List.cons_append, List.cons_append, joined_cons u (by simp), joined_cons u (by simp [hvs]),
      ih]

theorem Legible.left {vs ws : List (List Char)} (h : Legible (vs ++ ws)) : Legible vs := by
  refine ⟨fun w hw => h.1 w (List.mem_append_left ws hw), ?_⟩
  by_cases hvs : vs = []
  · rw [hvs]
    exact List.not_mem_nil
  · by_cases hws : ws = []
    · rw [hws, List.append_nil] at h
      exact h.2
    · have hbackslash := h.2
      rw [joined_append hvs hws, List.dropLast_append_of_ne_nil (List.cons_ne_nil _ _)] at hbackslash
      exact fun hmem => hbackslash (List.mem_append_left _ ((List.dropLast_sublist _).subset hmem))

theorem readOn_joined {ws : List (List Char)} (h : ∀ w ∈ ws, Word w) :
    readOn .between ((joined ws).map .plain) = ws := by
  induction ws with
  | nil => rfl
  | cons w ws ih =>
    have hw := h w List.mem_cons_self
    have hws := ih fun w' hw' => h w' (List.mem_cons_of_mem w hw')
    by_cases hnil : ws = []
    · rw [hnil, joined, ← List.append_nil (w.map _), readOn_append, hw.scan, readOn_nil, State.finish,
        decode_plain]
      rfl
    · have hspace : (State.word (w.map .plain)).step (.plain ' ') = (.between, some w) := by
        rw [step_space (by decide) rfl, State.finish, decode_plain]
      rw [joined_cons w hnil, List.map_append, List.map_cons, readOn_append, hw.scan, readOn_cons, hspace,
        hws]
      rfl

theorem elements_joined {ws : List (List Char)} (h : Legible ws) : elements (joined ws) = ws := by
  rw [elements, pieces_plain.mpr h.2, readOn_joined h.1]

end

/-! ## Characters that are lost -/

/-- The characters of elements, each with one that separates it from the next. -/
def span : List (List Char) → Nat
  | [] => 0
  | e :: es => e.length + 1 + span es

/-- The characters that the reader has in hand. -/
def State.held : State → Nat
  | between => 0
  | word ps => ps.length
  | quoted ps => ps.length
  | braced _ ps => (raws ps).length

section
variable {s : List Char} {st : State} {ps : List Piece} {es fs vs ws : List (List Char)}

theorem span_append (es fs : List (List Char)) : span (es ++ fs) = span es + span fs := by
  induction es with
  | nil => simp [span]
  | cons e es ih => rw [List.cons_append, span, span, ih, ← Nat.add_assoc]

theorem span_joined (h : ws ≠ []) : span ws = (joined ws).length + 1 := by
  induction ws with
  | nil => exact absurd rfl h
  | cons w ws ih =>
    by_cases hws : ws = []
    · rw [hws]
      rfl
    · rw [joined_cons w hws, span, ih hws, List.length_append, List.length_cons]
      omega

theorem span_sublist (h : es.Sublist fs) : span es ≤ span fs ∧ (span fs ≤ span es → es = fs) := by
  induction h with
  | slnil => exact ⟨Nat.le_refl _, fun _ => rfl⟩
  | cons e h ih =>
    obtain ⟨hle, -⟩ := ih
    exact ⟨by rw [span]; omega, fun hge => by rw [span] at hge; omega⟩
  | cons_cons e h ih =>
    obtain ⟨hle, heq⟩ := ih
    exact ⟨by rw [span, span]; omega, fun hge => by rw [heq (by rw [span, span] at hge; omega)]⟩

theorem length_decode_le (skip : Nat) (ps : List Piece) : (decode skip ps).length ≤ ps.length := by
  fun_induction decode skip ps with
  | case1 => exact Nat.le_refl _
  | case2 skip p ps ih => exact Nat.le_succ_of_le ih
  | case3 c ps ih => exact Nat.succ_le_succ ih
  | case4 c ps ih => exact Nat.succ_le_succ ih

theorem raws_cons (p : Piece) (ps : List Piece) : raws (p :: ps) = p.raw ++ raws ps := rfl

theorem raws_concat (ps : List Piece) (p : Piece) : raws (ps ++ [p]) = raws ps ++ p.raw := by
  simp [raws]

theorem span_finish_le (st : State) : span st.finish.toList ≤ st.held + 1 := by
  cases st with
  | between => exact Nat.zero_le _
  | word ps => exact Nat.succ_le_succ (length_decode_le 0 ps)
  | quoted ps => exact Nat.succ_le_succ (length_decode_le 0 ps)
  | braced level ps => exact Nat.le_refl _

theorem raw_length_pos (p : Piece) : 1 ≤ p.raw.length := by
  cases p with
  | plain c => exact Nat.le_refl _
  | escaped c => exact Nat.le_succ _

/-- The element that a step ends has no more characters than what the reader had in hand. -/
theorem span_step_le (st : State) (p : Piece) :
    span (st.step p).2.toList + (st.step p).1.held ≤ st.held + p.raw.length := by
  have hraw := raw_length_pos p
  have hend (e : List Char) (n : Nat) (h : e.length ≤ n) : span [e] + 0 ≤ n + p.raw.length := by
    rw [span, span]
    omega
  have hmore (ps : List Piece) : span [] + (ps ++ [p]).length ≤ ps.length + p.raw.length := by
    rw [span, List.length_append, List.length_singleton]
    omega
  have hbraced (ps : List Piece) :
      span [] + (raws (ps ++ [p])).length ≤ (raws ps).length + p.raw.length := by
    exact Nat.le_of_eq (by rw [span, raws_concat, List.length_append, Nat.zero_add])
  cases st with
  | between =>
    cases p with
    | plain c =>
      rw [State.step]
      split_ifs <;> simp [span, State.held, Piece.raw, raws]
    | escaped c => exact Nat.le_succ _
  | word ps =>
    cases p with
    | plain c =>
      rw [State.step]
      split_ifs
      · exact hend _ _ (length_decode_le 0 ps)
      · exact hmore ps
    | escaped c => exact hmore ps
  | quoted ps =>
    rw [State.step]
    split_ifs
    · exact hend _ _ (length_decode_le 0 ps)
    · exact hmore ps
  | braced level ps =>
    cases level with
    | zero =>
      rw [State.step]
      split_ifs
      · exact hbraced ps
      · exact hend _ _ (Nat.le_refl _)
      · exact hbraced ps
    | succ level =>
      rw [State.step]
      split_ifs
      · exact hbraced ps
      · exact hbraced ps
      · exact hbraced ps

theorem span_readOn_le (st : State) (ps : List Piece) :
    span (readOn st ps) ≤ st.held + (raws ps).length + 1 := by
  induction ps generalizing st with
  | nil => exact span_finish_le st
  | cons p ps ih =>
    have hstep := span_step_le st p
    have hrest := ih (st.step p).1
    rw [readOn_cons, span_append, raws_cons, List.length_append]
    omega

theorem span_elements_le (s : List Char) : span (elements s) ≤ s.length + 1 := by
  have h := span_readOn_le .between (pieces s)
  rwa [raws_pieces, State.held, Nat.zero_add] at h

/-- The reader is between words or in one. -/
def State.Reading (st : State) : Prop :=
  st = between ∨ ∃ w, Word w ∧ st = word (w.map .plain)

/-- A step that loses nothing takes a character of a word, or the white space behind one. -/
theorem step_exact {p : Piece} (hst : st.Reading)
    (h : st.held + p.raw.length ≤ span (st.step p).2.toList + (st.step p).1.held) :
    (st.step p).1.Reading ∧ (∀ w ∈ (st.step p).2.toList, Word w) ∧ ∃ c, p = .plain c := by
  obtain rfl | ⟨w, hw, rfl⟩ := hst
  · cases p with
    | escaped c => exact absurd h (Nat.not_succ_le_self 1)
    | plain c =>
      rw [State.step] at h ⊢
      split_ifs at h ⊢ with hspace hquote hbrace
      · exact absurd h (Nat.not_succ_le_zero 0)
      · exact absurd h (Nat.not_succ_le_zero 0)
      · exact absurd h (Nat.not_succ_le_zero 0)
      · have hword : Word [c] := by
          refine ⟨by simp, by simpa using hspace, ?_⟩
          simp [hquote, hbrace]
        exact ⟨.inr ⟨[c], hword, rfl⟩, fun w hw => absurd hw List.not_mem_nil, c, rfl⟩
  · cases p with
    | escaped c =>
      rw [State.step, State.held, State.held, List.length_append] at h
      exact absurd h (by simp [span, Piece.raw])
    | plain c =>
      by_cases hc : isSpace c = true
      · rw [step_space hc rfl, State.finish, decode_plain]
        exact ⟨.inl rfl, fun w' hw' => List.mem_singleton.mp hw' ▸ hw, c, rfl⟩
      · have hword : Word (w ++ [c]) := by
          refine ⟨by simp, fun d hd => ?_, ?_⟩
          · rcases List.mem_append.mp hd with hd | hd
            · exact hw.notSpace d hd
            · rw [List.mem_singleton.mp hd]
              exact Bool.eq_false_iff.mpr hc
          · rw [List.head?_append_of_ne_nil _ hw.ne_nil]
            exact hw.head_ne
        rw [State.step, if_neg hc]
        exact ⟨.inr ⟨w ++ [c], hword, by simp⟩, fun w hw => absurd hw List.not_mem_nil, c, rfl⟩

/-- Where the reader loses nothing, there are words and no escapes. -/
theorem readOn_exact (hst : st.Reading)
    (h : st.held + (raws ps).length + 1 ≤ span (readOn st ps)) :
    (∀ w ∈ readOn st ps, Word w) ∧ ps = (raws ps).map .plain := by
  induction ps generalizing st with
  | nil =>
    obtain rfl | ⟨w, hw, rfl⟩ := hst
    · cases h
    · simpa [State.finish, decode_plain, raws] using hw
  | cons p ps ih =>
    have hstep := span_step_le st p
    have hrest := span_readOn_le (st.step p).1 ps
    rw [readOn_cons, span_append, raws_cons, List.length_append] at h
    -- no character is gained, so neither this step nor the rest may lose one
    obtain ⟨hreading, hended, c, rfl⟩ := step_exact (p := p) hst (by omega)
    obtain ⟨hwords, hplain⟩ := ih hreading (by omega)
    rw [readOn_cons, raws_cons]
    refine ⟨fun w hw => (List.mem_append.mp hw).elim (hended w) (hwords w), ?_⟩
    exact congrArg (Piece.plain c :: ·) hplain

/-- **Nothing is lost.**  Elements with as many characters as the string are words. -/
theorem elements_exact (h : s.length + 1 ≤ span (elements s)) :
    (∀ w ∈ elements s, Word w) ∧ '\\' ∉ s.dropLast := by
  obtain ⟨hwords, hplain⟩ := readOn_exact (.inl rfl) (by rwa [raws_pieces, State.held, Nat.zero_add])
  rw [raws_pieces] at hplain
  exact ⟨hwords, pieces_plain.mp hplain⟩

theorem span_perm (h : es.Perm fs) : span es = span fs := by
  induction h with
  | nil => rfl
  | cons e _ ih => rw [span, span, ih]
  | swap e f es => rw [span, span, span, span, Nat.add_left_comm]
  | trans _ _ ih ih' => exact ih.trans ih'

/-- Where the elements of what is joined are words that have it as a part, in any order, nothing is
lost. -/
theorem legible_of_perm (h : vs.Sublist ws) (hperm : (elements (joined vs)).Perm ws) :
    vs = ws ∧ Legible ws := by
  by_cases hnil : vs = []
  · rw [hnil] at hperm ⊢
    have hws : ws = [] := List.nil_perm.mp hperm
    rw [hws]
    exact ⟨rfl, fun w hw => absurd hw List.not_mem_nil, List.not_mem_nil⟩
  · have hle := span_elements_le (joined vs)
    rw [← span_joined hnil, span_perm hperm] at hle
    have heq := (span_sublist h).2 hle
    have hkept : (joined vs).length + 1 = span (elements (joined vs)) := by
      rw [span_perm hperm, ← heq, span_joined hnil]
    obtain ⟨hwords, hbackslash⟩ := elements_exact (Nat.le_of_eq hkept)
    exact ⟨heq, fun w hw => hwords w (hperm.mem_iff.mpr hw), heq ▸ hbackslash⟩

end

/-! ## Characters that are counted -/

/-- The pieces that the reader has in hand. -/
def State.inHand : State → List Piece
  | between => []
  | word ps => ps
  | quoted ps => ps
  | braced _ ps => ps

/-- Escapes that stand for the characters themselves, none of them the one that is counted. -/
def Tame (c : Char) (ps : List Piece) : Prop :=
  ∀ d, .escaped d ∈ ps → d ≠ c ∧ ∀ qs, escape d qs = (d, 0)

section
variable {c : Char} {st : State} {p : Piece} {ps qs : List Piece}

theorem Tame.append (hps : Tame c ps) (hqs : Tame c qs) : Tame c (ps ++ qs) :=
  fun d hd => (List.mem_append.mp hd).elim (hps d) (hqs d)

theorem Tame.head (h : Tame c (p :: ps)) : Tame c [p] :=
  fun d hd => h d (List.mem_singleton.mp hd ▸ List.mem_cons_self)

theorem Tame.tail (h : Tame c (p :: ps)) : Tame c ps := fun d hd => h d (List.mem_cons_of_mem p hd)

/-- A step takes a piece in hand, or it ends what is in hand. -/
theorem step_cases (st : State) (p : Piece) :
    ((st.step p).1.inHand = st.inHand ++ [p] ∧ (st.step p).2 = none) ∨
    ((st.step p).1.inHand = [] ∧ (st.step p).2 = st.finish) := by
  cases st with
  | between =>
    cases p with
    | plain c =>
      rw [State.step]
      split_ifs
      · exact .inr ⟨rfl, rfl⟩
      · exact .inr ⟨rfl, rfl⟩
      · exact .inr ⟨rfl, rfl⟩
      · exact .inl ⟨rfl, rfl⟩
    | escaped c => exact .inl ⟨rfl, rfl⟩
  | word ps =>
    cases p with
    | plain c =>
      rw [State.step]
      split_ifs
      · exact .inr ⟨rfl, rfl⟩
      · exact .inl ⟨rfl, rfl⟩
    | escaped c => exact .inl ⟨rfl, rfl⟩
  | quoted ps =>
    rw [State.step]
    split_ifs
    · exact .inr ⟨rfl, rfl⟩
    · exact .inl ⟨rfl, rfl⟩
  | braced level ps =>
    cases level with
    | zero =>
      rw [State.step]
      split_ifs
      · exact .inl ⟨rfl, rfl⟩
      · exact .inr ⟨rfl, rfl⟩
      · exact .inl ⟨rfl, rfl⟩
    | succ level =>
      rw [State.step]
      split_ifs
      · exact .inl ⟨rfl, rfl⟩
      · exact .inl ⟨rfl, rfl⟩
      · exact .inl ⟨rfl, rfl⟩

theorem count_decode (h : Tame c ps) : (decode 0 ps).count c = ps.count (.plain c) := by
  induction ps with
  | nil => rfl
  | cons p ps ih =>
    cases p with
    | plain d => rw [decode, List.count_cons, List.count_cons, ih h.tail]; simp
    | escaped d =>
      obtain ⟨hne, hescape⟩ := h d List.mem_cons_self
      rw [decode, hescape, List.count_cons_of_ne hne, List.count_cons_of_ne (by simp), ih h.tail]

theorem count_raws (hc : c ≠ '\\') (h : Tame c ps) : (raws ps).count c = ps.count (.plain c) := by
  induction ps with
  | nil => rfl
  | cons p ps ih =>
    rw [raws_cons, List.count_append, ih h.tail]
    cases p with
    | plain d => simp [Piece.raw, List.count_cons, Nat.add_comm]
    | escaped d =>
      have hne := (h d List.mem_cons_self).1
      simp [Piece.raw, hne, Ne.symm hc]

theorem count_finish (hc : c ≠ '\\') (h : Tame c st.inHand) :
    st.finish.toList.flatten.count c ≤ st.inHand.count (.plain c) := by
  have hone (e : List Char) : ([e].flatten).count c = e.count c := by simp
  cases st with
  | between => exact Nat.le_refl _
  | word ps => exact Nat.le_of_eq ((hone _).trans (count_decode h))
  | quoted ps => exact Nat.le_of_eq ((hone _).trans (count_decode h))
  | braced level ps => exact Nat.le_of_eq ((hone _).trans (count_raws hc h))

/-- The reader adds no character to those that are written. -/
theorem count_readOn_le (hc : c ≠ '\\') (hst : Tame c st.inHand) (hps : Tame c ps) :
    (readOn st ps).flatten.count c ≤ st.inHand.count (.plain c) + ps.count (.plain c) := by
  induction ps generalizing st with
  | nil => exact count_finish hc hst
  | cons p ps ih =>
    rw [readOn_cons, List.flatten_append, List.count_append, List.count_cons]
    obtain ⟨hhand, hnone⟩ | ⟨hhand, hended⟩ := step_cases st p
    · have hrest : (readOn (st.step p).1 ps).flatten.count c ≤ _ :=
        ih (hhand ▸ hst.append hps.head) hps.tail
      rw [hhand, List.count_append, List.count_singleton] at hrest
      rw [hnone]
      simp only [Option.toList_none, List.flatten_nil, List.count_nil]
      omega
    · have hrest : (readOn (st.step p).1 ps).flatten.count c ≤ _ :=
        ih (by rw [hhand]; exact fun d hd => by cases hd) hps.tail
      have hfinish := count_finish hc hst
      rw [hhand, List.count_nil] at hrest
      rw [hended]
      omega

end

end ListSyntax
