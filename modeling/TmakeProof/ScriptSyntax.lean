import TmakeProof.ListText

/-! # Scripts of literal words

A script is read as commands, a command as words.  A new line or a semicolon ends a
command, white space a word; a word stands for itself, in quotes or in braces, and a
`#` where a command could begin hides the rest of its line.  The reader takes one piece
after the other, as the reader of lists does.

Nothing is substituted here: a script in which a variable, a command or an expanded list
stands outside of braces is not one of literal words, and the reader gives up on it.
Lists that are written as lines are read as the commands (`commands_linesText`), and a line
that breaks off is read as a beginning of its command, if it is read at all
(`commands_torn`).
-/
namespace ScriptSyntax
open ListSyntax

/-! ## The reader -/

/-- Where the reader is, with what it has read of a word. -/
inductive Mode where
  /-- Before the first word of a command; white space has been skipped there, or not yet. -/
  | line (skipped : Bool)
  /-- Behind a word and white space. -/
  | gap
  /-- In a word: what a quoted part before it stands for, and the pieces since. -/
  | bare (pre : List Char) (ps : List Piece)
  | quoted (ps : List Piece)
  | braced (level : Nat) (ps : List Piece)
  /-- Behind the brace that closes a word. -/
  | closed (ps : List Piece)
  | comment

/-- Why a script is not one of literal words. -/
inductive Trouble where
  /-- A quote or a brace is not closed, or something stands right behind a closing brace. -/
  | malformed
  | substituted
deriving DecidableEq

/-- White space that separates the words of a command. -/
def isSep (c : Char) : Bool := c = ' ' || c = '\t' || c = '\r' || c = '\x0c'

def isEol (c : Char) : Bool := c = '\n' || c = ';'

def isSubst (c : Char) : Bool := c = '$' || c = '['

/-- What one piece does: the mode behind it, the word that it ends, and whether it ends the
command. -/
structure Step where
  mode : Mode
  word : Option (List Char) := none
  ends : Bool := false

/-- The first piece of a word. -/
def openWord (p : Piece) : Except Trouble Step :=
  match p with
  | .plain c =>
    if isSubst c then .error .substituted
    else if c = '"' then .ok { mode := .quoted [] }
    else if c = '{' then .ok { mode := .braced 0 [] }
    else .ok { mode := .bare [] [p] }
  | .escaped _ => .ok { mode := .bare [] [p] }

/-- The piece behind a word ends it, if it separates. -/
def endWord (w : List Char) (p : Piece) : Option Step :=
  match p with
  | .plain c =>
    if isSep c then some { mode := .gap, word := some w }
    else if isEol c then some { mode := .line true, word := some w, ends := true }
    else none
  | .escaped c => if c = '\n' then some { mode := .gap, word := some w } else none

/-- One piece more. -/
def Mode.step : Mode → Piece → Except Trouble Step
  | line skipped, p =>
    match p with
    | .plain c =>
      if isSep c || isEol c || (skipped && c = '\x0b') then .ok { mode := .line true }
      else if c = '#' then .ok { mode := .comment }
      else openWord p
    | .escaped c => if c = '\n' then .ok { mode := .line true } else openWord p
  | gap, p =>
    match p with
    | .plain c =>
      if isSep c || c = '\x0b' then .ok { mode := .gap }
      else if isEol c then .ok { mode := .line true, ends := true }
      else openWord p
    | .escaped c => if c = '\n' then .ok { mode := .gap } else openWord p
  | bare pre ps, p =>
    match endWord (pre ++ decode 0 ps) p with
    | some s => .ok s
    | none =>
      if p = .plain '$' ∨ p = .plain '[' then .error .substituted
      else .ok { mode := .bare pre (ps ++ [p]) }
  | quoted ps, p =>
    if p = .plain '"' then .ok { mode := .bare (decode 0 ps) [] }
    else if p = .plain '$' ∨ p = .plain '[' then .error .substituted
    else .ok { mode := .quoted (ps ++ [p]) }
  | braced level ps, p =>
    if p = .plain '{' then .ok { mode := .braced (level + 1) (ps ++ [p]) }
    else if p = .plain '}' then
      match level with
      | 0 => .ok { mode := .closed ps }
      | level + 1 => .ok { mode := .braced level (ps ++ [p]) }
    else .ok { mode := .braced level (ps ++ [p]) }
  | closed ps, p =>
    match endWord (raws ps) p with
    | some s => .ok s
    | none =>
      -- `{*}` and `{expand}` before a word expand it
      if raws ps = ['*'] ∨ raws ps = "expand".toList then .error .substituted
      else .error .malformed
  | comment, p => .ok { mode := if p = .plain '\n' then .line false else .comment }

/-- The word that the end of the script ends. -/
def Mode.finish : Mode → Except Trouble (Option (List Char))
  | line _ => .ok none
  | gap => .ok none
  | bare pre ps => .ok (some (pre ++ decode 0 ps))
  | quoted _ => .error .malformed
  | braced _ _ => .error .malformed
  | closed ps => .ok (some (raws ps))
  | comment => .ok none

/-- A command, unless there are no words. -/
def command (ws : List (List Char)) : List (List (List Char)) := if ws = [] then [] else [ws]

/-- The commands, of which the words `ws` of the first one are read already. -/
def read : Mode → List (List Char) → List Piece → Except Trouble (List (List (List Char)))
  | m, ws, [] => do
    let w ← m.finish
    return command (ws ++ w.toList)
  | m, ws, p :: ps => do
    let s ← m.step p
    if s.ends then return command (ws ++ s.word.toList) ++ (← read s.mode [] ps)
    else read s.mode (ws ++ s.word.toList) ps

/-- The commands of a script. -/
def commands (cs : List Char) : Except Trouble (List (List (List Char))) :=
  read (.line false) [] (pieces cs)

/-! ## The writer -/

/-- A list as a line. -/
def lineText (ws : List (List Char)) : List Char := listText ws ++ ['\n']

def linesText (lines : List (List (List Char))) : List Char := lines.flatMap lineText

/-! ## Reading on -/

section
variable {cs w : List Char} {ws : List (List Char)} {c : Char} {p : Piece} {ps qs : List Piece}
  {m m' : Mode}

theorem read_cons {s : Step} (h : m.step p = .ok s) (hs : s.ends = false) :
    read m ws (p :: ps) = read s.mode (ws ++ s.word.toList) ps := by
  rw [read, h]
  simp [hs, bind, Except.bind]

theorem read_cons_ends {s : Step} (h : m.step p = .ok s) (hs : s.ends = true) :
    read m ws (p :: ps) = (command (ws ++ s.word.toList) ++ ·) <$> read s.mode [] ps := by
  rw [read, h]
  simp [hs, bind, Except.bind, pure, Except.pure, Functor.map, Except.map]

/-- The mode in which a separator ends this word. -/
def Mode.Holds : Mode → List Char → Prop
  | bare pre ps, w => pre ++ decode 0 ps = w
  | closed ps, w => raws ps = w
  | _, _ => False

theorem Mode.Holds.finish (h : m.Holds w) : m.finish = .ok (some w) := by
  cases m with
  | bare pre ps =>
    obtain rfl : pre ++ decode 0 ps = w := h
    rfl
  | closed ps =>
    obtain rfl : raws ps = w := h
    rfl
  | _ => exact h.elim

theorem Mode.Holds.step {s : Step} (h : m.Holds w) (hs : endWord w p = some s) :
    m.step p = .ok s := by
  cases m with
  | bare pre ps =>
    obtain rfl : pre ++ decode 0 ps = w := h
    rw [Mode.step, hs]
  | closed ps =>
    obtain rfl : raws ps = w := h
    rw [Mode.step, hs]
  | _ => exact h.elim

/-- Behind a blank, the next word. -/
theorem Mode.Holds.read_blank (h : m.Holds w) (ws : List (List Char)) (ps : List Piece) :
    read m ws (.plain ' ' :: ps) = read .gap (ws ++ [w]) ps :=
  read_cons (s := { mode := .gap, word := some w }) (h.step rfl) rfl

/-- Behind a new line, the next command. -/
theorem Mode.Holds.read_newline (h : m.Holds w) (ws : List (List Char)) (ps : List Piece) :
    read m ws (.plain '\n' :: ps) = ((ws ++ [w]) :: ·) <$> read (.line true) [] ps := by
  rw [read_cons_ends (s := { mode := .line true, word := some w, ends := true }) (h.step rfl) rfl]
  simp [command]

theorem Mode.Holds.read_nil (h : m.Holds w) (ws : List (List Char)) :
    read m ws [] = .ok [ws ++ [w]] := by
  rw [read, h.finish]
  simp [bind, Except.bind, command, pure, Except.pure]

/-! ## Words without quotes -/

/-- A piece that a word can have anywhere. -/
def Inner : Piece → Prop
  | .plain c => isSep c = false ∧ isEol c = false ∧ isSubst c = false
  | .escaped c => c ≠ '\n'

/-- A piece that a word can begin with; a `#` does so behind another word only. -/
structure Opens (m : Mode) (p : Piece) : Prop where
  inner : Inner p
  quote : p ≠ .plain '"'
  brace : p ≠ .plain '{'
  tab : p ≠ .plain '\x0b'
  start : m = .gap ∨ (∃ b, m = .line b) ∧ p ≠ .plain '#'

theorem Opens.step (h : Opens m p) : m.step p = .ok { mode := .bare [] [p] } := by
  have hopen : openWord p = .ok { mode := .bare [] [p] } := by
    cases p with
    | plain c =>
      have hquote : c ≠ '"' := fun hc => h.quote (hc ▸ rfl)
      have hbrace : c ≠ '{' := fun hc => h.brace (hc ▸ rfl)
      simp [openWord, h.inner.2.2, hquote, hbrace]
    | escaped c => rfl
  rcases h.start with rfl | ⟨⟨b, rfl⟩, hhash⟩
  · cases p with
    | plain c =>
      have htab : c ≠ '\x0b' := fun hc => h.tab (hc ▸ rfl)
      simpa [Mode.step, h.inner.1, h.inner.2.1, htab] using hopen
    | escaped c => simpa [Mode.step, show c ≠ '\n' from h.inner] using hopen
  · cases p with
    | plain c =>
      have htab : c ≠ '\x0b' := fun hc => h.tab (hc ▸ rfl)
      have hhash : c ≠ '#' := fun hc => hhash (hc ▸ rfl)
      simpa [Mode.step, h.inner.1, h.inner.2.1, htab, hhash] using hopen
    | escaped c => simpa [Mode.step, show c ≠ '\n' from h.inner] using hopen

theorem Inner.endWord (h : Inner p) (w : List Char) : endWord w p = none := by
  cases p with
  | plain c => simp [ScriptSyntax.endWord, h.1, h.2.1]
  | escaped c => simp [ScriptSyntax.endWord, show c ≠ '\n' from h]

theorem Inner.step (h : Inner p) (pre : List Char) (qs : List Piece) :
    (Mode.bare pre qs).step p = .ok { mode := .bare pre (qs ++ [p]) } := by
  have hsubst : ¬(p = .plain '$' ∨ p = .plain '[') := by
    rintro (rfl | rfl)
    · exact absurd h.2.2 (by decide)
    · exact absurd h.2.2 (by decide)
  rw [Mode.step, h.endWord]
  simp only [if_neg hsubst]

theorem read_inner (h : ∀ p ∈ ps, Inner p) (pre : List Char) (qs rest : List Piece)
    (ws : List (List Char)) :
    read (.bare pre qs) ws (ps ++ rest) = read (.bare pre (qs ++ ps)) ws rest := by
  induction ps generalizing qs with
  | nil => rw [List.nil_append, List.append_nil]
  | cons p ps ih =>
    rw [List.forall_mem_cons] at h
    rw [List.cons_append, read_cons (h.1.step pre qs) rfl]
    simpa using ih h.2 (qs ++ [p])

/-- A word of such pieces. -/
theorem read_word (hp : Opens m p) (hps : ∀ q ∈ ps, Inner q) (rest : List Piece)
    (ws : List (List Char)) :
    read m ws (p :: (ps ++ rest)) = read (.bare [] (p :: ps)) ws rest := by
  rw [read_cons hp.step rfl]
  simpa using read_inner hps [] [p] rest ws

/-! ## Words in braces -/

/-- In braces a script is read as a list is. -/
theorem read_braced {level level' : Nat} {qs' : List Piece}
    (h : scan (.braced level qs) ps = ([], .braced level' qs')) (rest : List Piece)
    (ws : List (List Char)) :
    read (.braced level qs) ws (ps ++ rest) = read (.braced level' qs') ws rest := by
  induction ps generalizing level qs with
  | nil =>
    rw [scan, Prod.mk.injEq] at h
    injection h.2 with hlevel hqs
    rw [List.nil_append, hlevel, hqs]
  | cons p ps ih =>
    rw [scan, Prod.mk.injEq, List.append_eq_nil_iff] at h
    obtain ⟨⟨hout, hnil⟩, hend⟩ := h
    have hstep : ∃ level₁ qs₁, (Mode.braced level qs).step p = .ok { mode := .braced level₁ qs₁ } ∧
        ((State.braced level qs).step p).1 = .braced level₁ qs₁ := by
      by_cases hopen : p = .plain '{'
      · exact ⟨level + 1, qs ++ [p], by simp [Mode.step, hopen], by simp [State.step, hopen]⟩
      by_cases hclose : p = .plain '}'
      · cases level with
        | zero =>
          -- the brace would end an element
          subst hclose
          simp [State.step] at hout
        | succ level =>
          exact ⟨level, qs ++ [p], by simp [Mode.step, hclose], by simp [State.step, hclose]⟩
      · exact ⟨level, qs ++ [p], by simp [Mode.step, hopen, hclose],
          by simp [State.step, hopen, hclose]⟩
    obtain ⟨level₁, qs₁, hread, hscan⟩ := hstep
    rw [hscan] at hnil hend
    rw [List.cons_append, read_cons hread rfl]
    simpa using ih (Prod.ext hnil hend)

/-- The place of a first word, or of one behind a blank. -/
def Mode.Ready (m : Mode) : Prop := m = .gap ∨ ∃ b, m = .line b

theorem Mode.Ready.step_brace (h : m.Ready) :
    m.step (.plain '{') = .ok { mode := .braced 0 [] } := by
  rcases h with rfl | ⟨b, rfl⟩
  · rfl
  · simp [Mode.step, openWord, isSep, isEol, isSubst]

/-- A word in braces is the text between them. -/
theorem read_balanced (hm : m.Ready) (h : Balanced cs) (rest : List Piece)
    (ws : List (List Char)) :
    read m ws (.plain '{' :: (pieces cs ++ .plain '}' :: rest)) =
      read (.closed (pieces cs)) ws rest := by
  obtain ⟨hlast, b, hlevels⟩ := h
  have hclose : (Mode.braced 0 (pieces cs)).step (.plain '}') =
      .ok { mode := .closed (pieces cs) } := by simp [Mode.step]
  rw [read_cons hm.step_brace rfl, read_braced (scan_braced hlevels hlast []), List.nil_append,
    read_cons hclose rfl]
  simp

/-! ## Elements of lists -/

theorem inner_of_unmarked (h : listSpecial c = false) : Inner (.plain c) := by
  simp only [listSpecial, isSpace, Bool.or_eq_false_iff, decide_eq_false_iff_not] at h
  simp [Inner, isSep, isEol, isSubst, h]

/-- With backslashes, nothing is left that would end a word or be substituted. -/
theorem inner_backslashQuote (cs : List Char) : ∀ p ∈ pieces (backslashQuote cs), Inner p := by
  induction cs with
  | nil => exact fun p hp => absurd hp List.not_mem_nil
  | cons c cs ih =>
    obtain ⟨q, hq, hpieces⟩ : ∃ q : Piece, Inner q ∧
        pieces (backslashQuote (c :: cs)) = q :: pieces (backslashQuote cs) := by
      simp only [backslashQuote, List.flatMap_cons]
      split_ifs with hn hr ht hf hv hspecial
      · exact ⟨.escaped 'n', (by decide : 'n' ≠ '\n'), rfl⟩
      · exact ⟨.escaped 'r', (by decide : 'r' ≠ '\n'), rfl⟩
      · exact ⟨.escaped 't', (by decide : 't' ≠ '\n'), rfl⟩
      · exact ⟨.escaped 'f', (by decide : 'f' ≠ '\n'), rfl⟩
      · exact ⟨.escaped 'v', (by decide : 'v' ≠ '\n'), rfl⟩
      · exact ⟨.escaped c, hn, rfl⟩
      · have hspecial : (listSpecial c || c = '{' || c = '}') = false := by simpa using hspecial
        have hc : listSpecial c = false :=
          (Bool.or_eq_false_iff.mp (Bool.or_eq_false_iff.mp hspecial).1).1
        have hbackslash : c ≠ '\\' := by
          rintro rfl
          cases hc
        exact ⟨.plain c, inner_of_unmarked hc, pieces_cons hbackslash _⟩
    rw [hpieces]
    exact List.forall_mem_cons.mpr ⟨hq, ih⟩

/-- A character that no quoting is needed for. -/
def isPlain (c : Char) : Bool := !(listSpecial c || c = '{' || c = '}')

theorem quotingType_plain (hne : cs ≠ []) (h : cs.all isPlain = true) : quotingType cs = .simple := by
  have hplain : ∀ c ∈ cs, (listSpecial c || c = '{' || c = '}') = false := fun c hc => by
    simpa [isPlain] using List.all_eq_true.mp h c hc
  have hhead : ¬((cs.head? = some '"' || cs.head? = some '{') = true) := by
    intro hhead
    rcases Bool.or_eq_true_iff.mp hhead with hhead | hhead
    · exact absurd (hplain _ (List.mem_of_head? (of_decide_eq_true hhead))) (by decide)
    · exact absurd (hplain _ (List.mem_of_head? (of_decide_eq_true hhead))) (by decide)
  have hfind : cs.find? (fun c => listSpecial c || c = '{' || c = '}') = none :=
    List.find?_eq_none.mpr fun c hc => by simpa using hplain c hc
  rw [quotingType, if_neg (by simpa using hne), if_neg hhead, hfind]

theorem pieces_of_unmarked (h : ∀ c ∈ cs, listSpecial c = false) : pieces cs = cs.map .plain :=
  pieces_plain.mpr fun hmem => absurd (h '\\' ((List.dropLast_sublist cs).subset hmem)) (by decide)

/-- Behind an element of a list the reader holds the element. -/
theorem read_elementText {f : Bool} (hm : m = .gap ∨ f = true ∧ ∃ b, m = .line b)
    (e : List Char) : ∃ m' : Mode, m'.Holds e ∧
      ∀ ws rest, read m ws (pieces (elementText f e) ++ rest) = read m' ws rest := by
  have hbraces (h : quotingType e ≠ .quote) : ∃ m' : Mode, m'.Holds e ∧ ∀ ws rest,
      read m ws (pieces ('{' :: (e ++ ['}'])) ++ rest) = read m' ws rest := by
    have hbal := quotingType_balanced h
    refine ⟨.closed (pieces e), raws_pieces e, fun ws rest => ?_⟩
    have hclose : pieces ['}'] = [.plain '}'] := rfl
    rw [pieces_cons (by decide), pieces_append (backslash_notMem_pieces hbal.1), hclose]
    simpa using read_balanced (hm.imp_right fun h => h.2) hbal rest ws
  have hbare {p : Piece} {ps : List Piece} (hdecode : decode 0 (p :: ps) = e)
      (hinner : ∀ q ∈ p :: ps, Inner q) (hquote : p ≠ .plain '"') (hbrace : p ≠ .plain '{')
      (htab : p ≠ .plain '\x0b') (hhash : f = true → p ≠ .plain '#') :
      ∃ m' : Mode, m'.Holds e ∧ ∀ ws rest, read m ws (p :: ps ++ rest) = read m' ws rest := by
    rw [List.forall_mem_cons] at hinner
    have hopens : Opens m p :=
      ⟨hinner.1, hquote, hbrace, htab, hm.imp_right fun h => ⟨h.2, hhash h.1⟩⟩
    exact ⟨.bare [] (p :: ps), hdecode, fun ws rest => read_word hopens hinner.2 rest ws⟩
  rw [elementText]
  split
  · rename_i hsimple
    split
    · exact hbraces (by simp [hsimple])
    · rename_i hhash
      have hword := (quotingType_simple hsimple).1
      have hplain := quotingType_unmarked hsimple
      rw [pieces_of_unmarked hplain]
      obtain ⟨c, cs, rfl⟩ := List.exists_cons_of_ne_nil hword.ne_nil
      have hc := hplain c List.mem_cons_self
      refine hbare (decode_plain (c :: cs)) ?_ ?_ ?_ ?_ ?_
      · intro q hq
        obtain ⟨d, hd, rfl⟩ := List.mem_map.mp (List.map_cons ▸ hq)
        exact inner_of_unmarked (hplain d hd)
      · rintro ⟨rfl⟩
        exact absurd hc (by decide)
      · rintro ⟨rfl⟩
        exact hword.head_ne.2 rfl
      · rintro ⟨rfl⟩
        exact absurd hc (by decide)
      · rintro hfirst ⟨rfl⟩
        exact hhash (by simp [hfirst])
  · rename_i hbrace
    exact hbraces (by simp [hbrace])
  · rename_i hquote
    obtain ⟨c, cs, rfl⟩ := List.exists_cons_of_ne_nil (show e ≠ [] by rintro rfl; cases hquote)
    obtain ⟨p, hp, hpieces⟩ := exists_piece_backslashQuote c
    have hstands := stands_backslashQuote (c :: cs)
    have hinner := inner_backslashQuote (c :: cs)
    rw [hpieces cs] at hstands hinner
    split_ifs with hhash
    · -- a `#` at the beginning is hidden by a backslash
      obtain rfl : c = '#' := by simpa using (Bool.and_eq_true_iff.mp hhash).2
      have hdecode : decode 0 (.escaped '#' :: pieces (backslashQuote cs)) = '#' :: cs :=
        congrArg ('#' :: ·) (decode_stands (stands_backslashQuote cs))
      have hhidden : ∀ q ∈ .escaped '#' :: pieces (backslashQuote cs), Inner q :=
        List.forall_mem_cons.mpr ⟨(by decide : '#' ≠ '\n'), inner_backslashQuote cs⟩
      exact hbare hdecode hhidden (by simp) (by simp) (by simp) fun _ => by simp
    · rw [List.nil_append, hpieces cs]
      refine hbare (decode_stands hstands) hinner ?_ ?_ ?_ ?_
      · rintro rfl
        exact hp.2.2.1 rfl
      · rintro rfl
        exact hp.2.2.2.1 rfl
      · rintro rfl
        exact absurd hp.2.1 (by decide)
      · rintro hfirst rfl
        exact hhash (by simp [hfirst, ← hp.1])

/-! ## Lines -/

/-- What stands behind the first element, in front of the rest of the script. -/
theorem read_tailText (hm : m.Holds w) (ws es : List (List Char)) (rest : List Piece) :
    read m ws (pieces (tailText (es.map (elementText false))) ++ .plain '\n' :: rest) =
      ((ws ++ w :: es) :: ·) <$> read (.line true) [] rest := by
  induction es generalizing m ws w with
  | nil => exact hm.read_newline ws rest
  | cons e es ih =>
    obtain ⟨m', hm', hread⟩ := read_elementText (m := .gap) (f := false) (.inl rfl) e
    have hpieces : pieces (tailText ((e :: es).map (elementText false))) =
        .plain ' ' :: (pieces (elementText false e) ++
          pieces (tailText (es.map (elementText false)))) := by
      rw [List.map_cons, tailText, pieces_cons (by decide), joined_eq,
        pieces_append (reads_elementText false e).1.2]
    rw [hpieces, List.cons_append, hm.read_blank, List.append_assoc, hread, ih hm']
    simp

/-- A line is one command, and what is behind it is read on its own. -/
theorem read_lineText (hws : ws ≠ []) {b : Bool} (cs : List Char) :
    read (.line b) [] (pieces (lineText ws ++ cs)) =
      (ws :: ·) <$> read (.line true) [] (pieces cs) := by
  obtain ⟨e, es, rfl⟩ := List.exists_cons_of_ne_nil hws
  obtain ⟨m', hm', hread⟩ :=
    read_elementText (m := .line b) (f := true) (.inr ⟨rfl, b, rfl⟩) e
  have hpieces : pieces (lineText (e :: es) ++ cs) = pieces (elementText true e) ++
      (pieces (tailText (es.map (elementText false))) ++ .plain '\n' :: pieces cs) := by
    have hline : lineText (e :: es) ++ cs = listText (e :: es) ++ '\n' :: cs := by
      simp [lineText]
    have hlist : pieces (listText (e :: es)) =
        pieces (elementText true e) ++ pieces (tailText (es.map (elementText false))) := by
      rw [listText, joined_eq, pieces_append (reads_elementText true e).1.2]
    rw [hline, pieces_append (elements_listText (e :: es)).1.2, pieces_cons (by decide), hlist,
      List.append_assoc]
  rw [hpieces, hread, read_tailText hm']
  rfl

/-- It makes a difference to a vertical tab only whether white space has been skipped. -/
theorem read_line (h : cs.head? ≠ some '\x0b') (b b' : Bool) :
    read (.line b) [] (pieces cs) = read (.line b') [] (pieces cs) := by
  have hstep {p : Piece} (hp : p ≠ .plain '\x0b') : (Mode.line b).step p = (Mode.line b').step p := by
    cases p with
    | plain c =>
      have hc : c ≠ '\x0b' := fun hc => hp (hc ▸ rfl)
      simp [Mode.step, hc]
    | escaped c => rfl
  cases hcs : pieces cs with
  | nil => rfl
  | cons p ps =>
    have hp : p ≠ .plain '\x0b' := by
      rintro rfl
      have hraws := raws_pieces cs
      rw [hcs] at hraws
      exact h (hraws ▸ rfl)
    rw [read, hstep hp, read]

/-- **Lists that are written as lines are commands**, and what is behind them is read on its
own. -/
theorem commands_append {lines : List (List (List Char))} (h : ∀ ws ∈ lines, ws ≠ [])
    (hcs : cs.head? ≠ some '\x0b') :
    commands (linesText lines ++ cs) = (lines ++ ·) <$> commands cs := by
  have hread : ∀ b, read (.line b) [] (pieces (linesText lines ++ cs)) =
      (lines ++ ·) <$> read (.line true) [] (pieces cs) := by
    induction lines with
    | nil =>
      intro b
      rw [show linesText [] ++ cs = cs from rfl, read_line hcs b true]
      simp
    | cons ws lines ih =>
      intro b
      rw [List.forall_mem_cons] at h
      have hline : linesText (ws :: lines) ++ cs = lineText ws ++ (linesText lines ++ cs) := by
        simp [linesText]
      rw [hline, read_lineText h.1, ih h.2 true, ← comp_map]
      rfl
  rw [commands, hread false, commands, read_line hcs true false]

theorem commands_linesText {lines : List (List (List Char))} (h : ∀ ws ∈ lines, ws ≠ []) :
    commands (linesText lines) = .ok lines := by
  have happend : commands (linesText lines ++ []) = (lines ++ ·) <$> commands [] :=
    commands_append h nofun
  rw [List.append_nil] at happend
  rw [happend]
  exact congrArg Except.ok (List.append_nil lines)

/-! ## Lines that break off -/

/-- The pieces of a beginning of a text; a backslash may have lost what it takes along. -/
theorem pieces_prefix {part : List Char} (h : part <+: cs) :
    ∃ ps, ps <+: pieces cs ∧ (pieces part = ps ∨ pieces part = ps ++ [.plain '\\']) := by
  fun_induction pieces cs generalizing part with
  | case1 =>
    rw [List.prefix_nil.mp h]
    exact ⟨[], List.nil_prefix, .inl rfl⟩
  | case2 c =>
    rcases List.prefix_cons_iff.mp h with rfl | ⟨part, rfl, hpart⟩
    · exact ⟨[], List.nil_prefix, .inl rfl⟩
    · rw [List.prefix_nil.mp hpart]
      exact ⟨[.plain c], List.prefix_rfl, .inl rfl⟩
  | case3 d cs ih =>
    rcases List.prefix_cons_iff.mp h with rfl | ⟨part, rfl, hpart⟩
    · exact ⟨[], List.nil_prefix, .inl rfl⟩
    rcases List.prefix_cons_iff.mp hpart with rfl | ⟨part', rfl, hpart'⟩
    · exact ⟨[], List.nil_prefix, .inr rfl⟩
    obtain ⟨ps, hps, hpieces⟩ := ih hpart'
    refine ⟨.escaped d :: ps, List.cons_prefix_cons.mpr ⟨rfl, hps⟩, ?_⟩
    rw [pieces_escape]
    exact hpieces.imp (congrArg _) (congrArg _)
  | case4 c d cs hc ih =>
    rcases List.prefix_cons_iff.mp h with rfl | ⟨part, rfl, hpart⟩
    · exact ⟨[], List.nil_prefix, .inl rfl⟩
    obtain ⟨ps, hps, hpieces⟩ := ih hpart
    refine ⟨.plain c :: ps, List.cons_prefix_cons.mpr ⟨rfl, hps⟩, ?_⟩
    rw [pieces_cons hc]
    exact hpieces.imp (congrArg _) (congrArg _)

/-- As long as no element is read, the brace stays open. -/
theorem scan_braced_open {level : Nat} (h : (scan (.braced level qs) ps).1 = []) :
    ∃ level' qs', scan (.braced level qs) ps = ([], .braced level' qs') := by
  induction ps generalizing level qs with
  | nil => exact ⟨level, qs, rfl⟩
  | cons p ps ih =>
    rw [scan] at h ⊢
    obtain ⟨hout, hrest⟩ := List.append_eq_nil_iff.mp h
    by_cases hopen : p = .plain '{'
    · simp only [State.step, if_pos hopen] at hrest ⊢
      obtain ⟨level', qs', hscan⟩ := ih hrest
      exact ⟨level', qs', by rw [hscan]; rfl⟩
    by_cases hclose : p = .plain '}'
    · subst hclose
      cases level with
      | zero => simp [State.step] at hout
      | succ level =>
        simp only [State.step, if_neg hopen, if_pos] at hrest ⊢
        obtain ⟨level', qs', hscan⟩ := ih hrest
        exact ⟨level', qs', by rw [hscan]; rfl⟩
    · simp only [State.step, if_neg hopen, if_neg hclose] at hrest ⊢
      obtain ⟨level', qs', hscan⟩ := ih hrest
      exact ⟨level', qs', by rw [hscan]; rfl⟩

/-- Text in braces that breaks off is not a script. -/
theorem read_braced_torn (h : Balanced cs) {part : List Char} (hpart : part <+: cs)
    (ws : List (List Char)) : read (.braced 0 []) ws (pieces part) = .error .malformed := by
  obtain ⟨hlast, b, hlevels⟩ := h
  obtain ⟨ps, ⟨rest, hrest⟩, hpieces⟩ := pieces_prefix hpart
  have hscan := scan_braced hlevels hlast []
  rw [← hrest, scan_append] at hscan
  obtain ⟨level, qs, hopen⟩ :=
    scan_braced_open (List.append_eq_nil_iff.mp (congrArg Prod.fst hscan)).1
  rcases hpieces with hpieces | hpieces
  · rw [hpieces, ← List.append_nil ps, read_braced hopen]
    rfl
  · rw [hpieces, read_braced hopen]
    rfl

/-- What is left of an element that breaks off. -/
structure Torn (e w : List Char) : Prop where
  beginning : w <+: e
  brace : quotingType e = .brace → w = e
  nil : w = [] → e = []

theorem Torn.refl (e : List Char) : Torn e e := ⟨List.prefix_rfl, fun _ => rfl, id⟩

/-- A beginning of an element is read as a beginning of the word, if it is read at all. -/
theorem read_element_torn {f : Bool} (hm : m = .gap ∨ f = true ∧ ∃ b, m = .line b)
    {e part : List Char} (he : quotingType e ≠ .quote) (hpart : part <+: elementText f e)
    (hne : part ≠ []) (ws : List (List Char)) :
    read m ws (pieces part) = .error .malformed ∨
      ∃ w, Torn e w ∧ read m ws (pieces part) = .ok [ws ++ [w]] := by
  have hready : m.Ready := hm.imp_right fun h => h.2
  have hbal := quotingType_balanced he
  have hbraces (hpart : part <+: '{' :: (e ++ ['}'])) : read m ws (pieces part) = .error .malformed ∨
      ∃ w, Torn e w ∧ read m ws (pieces part) = .ok [ws ++ [w]] := by
    rcases List.prefix_cons_iff.mp hpart with rfl | ⟨inner, rfl, hinner⟩
    · exact absurd rfl hne
    rcases List.prefix_concat_iff.mp hinner with rfl | hinner
    · refine .inr ⟨e, .refl e, ?_⟩
      have hclose : pieces ['}'] = [.plain '}'] := rfl
      rw [pieces_cons (by decide), pieces_append (backslash_notMem_pieces hbal.1), hclose,
        read_balanced hready hbal]
      exact Mode.Holds.read_nil (m := .closed (pieces e)) (raws_pieces e) ws
    · rw [pieces_cons (by decide), read_cons hready.step_brace rfl]
      refine .inl ?_
      simpa using read_braced_torn hbal hinner ws
  rw [elementText] at hpart
  split at hpart
  · rename_i hsimple
    split_ifs at hpart with hhash
    · exact hbraces hpart
    · have hword := (quotingType_simple hsimple).1
      have hplain := quotingType_unmarked hsimple
      have hpieces := pieces_of_unmarked fun c hc => hplain c (hpart.subset hc)
      obtain ⟨c, cs, rfl⟩ := List.exists_cons_of_ne_nil hne
      have hhead : e.head? = some c := by
        obtain ⟨rest, rfl⟩ := hpart
        rfl
      have hc := hplain c (hpart.subset List.mem_cons_self)
      have hopens : Opens m (.plain c) := by
        refine ⟨inner_of_unmarked hc, ?_, ?_, ?_, hm.imp_right fun h => ⟨h.2, ?_⟩⟩
        · rintro ⟨rfl⟩
          exact absurd hc (by decide)
        · rintro ⟨rfl⟩
          exact hword.head_ne.2 hhead
        · rintro ⟨rfl⟩
          exact absurd hc (by decide)
        · rintro ⟨rfl⟩
          exact hhash (by simp [h.1, hhead])
      have hinner : ∀ q ∈ cs.map Piece.plain, Inner q := by
        intro q hq
        obtain ⟨d, hd, rfl⟩ := List.mem_map.mp hq
        exact inner_of_unmarked (hplain d (hpart.subset (List.mem_cons_of_mem c hd)))
      refine .inr ⟨c :: cs, ⟨hpart, fun hbrace => ?_, fun hnil => ?_⟩, ?_⟩
      · rw [hsimple] at hbrace
        cases hbrace
      · exact absurd hnil (List.cons_ne_nil c cs)
      · have hholds : (Mode.bare [] ((c :: cs).map .plain)).Holds (c :: cs) := decode_plain (c :: cs)
        have hread := read_word hopens hinner [] ws
        rw [List.append_nil] at hread
        rw [hpieces, List.map_cons, hread]
        exact hholds.read_nil ws
  · exact hbraces hpart
  · rename_i hquote
    exact absurd hquote he

/-- What is read of a line that breaks off, if anything is: a beginning of the command, the last
word of which may be torn. -/
def BrokenOff (ws : List (List Char)) (r : Except Trouble (List (List (List Char)))) : Prop :=
  r = .error .malformed ∨
    ∃ before e w, before ++ [e] <+: ws ∧ Torn e w ∧ r = .ok [before ++ [w]]

theorem BrokenOff.whole {before es : List (List Char)} (h : m.Holds w) :
    BrokenOff (before ++ w :: es) (read m before []) :=
  .inr ⟨before, w, w, ⟨es, by simp⟩, .refl w, h.read_nil before⟩

theorem read_tail_torn {es : List (List Char)} {text : List Char}
    (hes : ∀ e ∈ es, quotingType e ≠ .quote) (hm : m.Holds w)
    (htext : text <+: tailText (es.map (elementText false)) ++ ['\n']) (before : List (List Char)) :
    BrokenOff (before ++ w :: es) (read m before (pieces text)) := by
  induction es generalizing m w text before with
  | nil =>
    rcases List.prefix_cons_iff.mp htext with rfl | ⟨rest, rfl, hrest⟩
    · exact .whole hm
    · rw [List.prefix_nil.mp hrest, show pieces ['\n'] = [.plain '\n'] from rfl, hm.read_newline]
      exact .inr ⟨before, w, w, List.prefix_rfl, .refl w, rfl⟩
  | cons e es ih =>
    rw [List.forall_mem_cons] at hes
    rw [List.map_cons, tailText, joined_eq, List.cons_append, List.append_assoc] at htext
    rcases List.prefix_cons_iff.mp htext with rfl | ⟨rest, rfl, hrest⟩
    · exact .whole hm
    rw [pieces_cons (by decide), hm.read_blank]
    have hfull : before ++ w :: e :: es = (before ++ [w]) ++ e :: es := by simp
    rcases List.prefix_or_prefix_of_prefix hrest (List.prefix_append (elementText false e) _) with
      hpart | ⟨tail, rfl⟩
    · by_cases hnil : rest = []
      · subst hnil
        have hgap : read .gap (before ++ [w]) (pieces []) = .ok [before ++ [w]] := by
          simp [read, pieces, Mode.finish, command, bind, Except.bind, pure, Except.pure]
        exact .inr ⟨before, w, w, ⟨e :: es, by simp⟩, .refl w, hgap⟩
      · rcases read_element_torn (m := .gap) (.inl rfl) hes.1 hpart hnil (before ++ [w]) with
          h | ⟨w', htorn, h⟩
        · exact .inl h
        · exact .inr ⟨before ++ [w], e, w', ⟨es, by simp⟩, htorn, h⟩
    · obtain ⟨m', hm', hread⟩ := read_elementText (m := .gap) (f := false) (.inl rfl) e
      rw [pieces_append (reads_elementText false e).1.2, hread, hfull]
      exact ih hes.2 hm' ((List.prefix_append_right_inj _).mp hrest) (before ++ [w])

/-- **A line that breaks off** is not read at all, or as a beginning of the command in which only
a last word that is not in braces can be torn. -/
theorem commands_torn {text : List Char} (hws : ∀ e ∈ ws, quotingType e ≠ .quote)
    (htext : text <+: lineText ws) : commands text = .ok [] ∨ BrokenOff ws (commands text) := by
  cases ws with
  | nil =>
    have hline : lineText [] = ['\n'] := rfl
    rw [hline] at htext
    rcases List.prefix_cons_iff.mp htext with rfl | ⟨rest, rfl, hrest⟩
    · exact .inl rfl
    · rw [List.prefix_nil.mp hrest]
      exact .inl rfl
  | cons e es =>
    rw [List.forall_mem_cons] at hws
    rw [lineText, listText, joined_eq, List.append_assoc] at htext
    have hm : Mode.line false = .gap ∨ true = true ∧ ∃ b, Mode.line false = .line b :=
      .inr ⟨rfl, false, rfl⟩
    by_cases hnil : text = []
    · subst hnil
      exact .inl rfl
    refine .inr ?_
    rcases List.prefix_or_prefix_of_prefix htext (List.prefix_append (elementText true e) _) with
      hpart | ⟨tail, rfl⟩
    · rcases read_element_torn hm hws.1 hpart hnil [] with h | ⟨w, htorn, h⟩
      · exact .inl h
      · exact .inr ⟨[], e, w, ⟨es, rfl⟩, htorn, h⟩
    · obtain ⟨m', hm', hread⟩ := read_elementText hm e
      rw [commands, pieces_append (reads_elementText true e).1.2, hread]
      exact read_tail_torn hws.2 hm' ((List.prefix_append_right_inj _).mp htext) []

/-- A beginning of several lines. -/
theorem prefix_linesText {lines : List (List (List Char))} {text : List Char}
    (h : text <+: linesText lines) :
    ∃ before part, text = linesText before ++ part ∧
      (before = lines ∧ part = [] ∨ ∃ ws, before ++ [ws] <+: lines ∧ part <+: lineText ws) := by
  induction lines generalizing text with
  | nil => exact ⟨[], [], List.prefix_nil.mp h, .inl ⟨rfl, rfl⟩⟩
  | cons ws lines ih =>
    have hcons (lines : List (List (List Char))) :
        linesText (ws :: lines) = lineText ws ++ linesText lines := rfl
    rw [hcons] at h
    rcases List.prefix_or_prefix_of_prefix h (List.prefix_append (lineText ws) _) with
      hpart | ⟨rest, rfl⟩
    · exact ⟨[], text, rfl, .inr ⟨ws, ⟨lines, rfl⟩, hpart⟩⟩
    · obtain ⟨before, part, rfl, hpart⟩ := ih ((List.prefix_append_right_inj _).mp h)
      refine ⟨ws :: before, part, by rw [hcons, List.append_assoc], ?_⟩
      exact hpart.imp (fun h => ⟨congrArg _ h.1, h.2⟩)
        fun ⟨ws', hws', h⟩ => ⟨ws', List.cons_prefix_cons.mpr ⟨rfl, hws'⟩, h⟩

end
end ScriptSyntax
