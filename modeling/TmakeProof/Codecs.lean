import Mathlib.Data.List.AList
import TmakeProof.ListText

/-! # Values as texts

A value that is kept as a string is written by an encoder and read back by a decoder.
`Codec` is a pair of them that fit together; codecs of lists, of pairs and of
dictionaries are put together of those of their parts, with lists as the only syntax.
-/

/-- An encoder, and a decoder that reads back what it writes. -/
structure Codec (α : Type) where
  encode : α → List Char
  decode : List Char → Option α
  decode_encode : ∀ a, decode (encode a) = some a

namespace Codec
open ListSyntax

variable {α β : Type}

theorem encode_injective (c : Codec α) : Function.Injective c.encode := fun a b h => by
  have := c.decode_encode b
  rw [← h, c.decode_encode] at this
  exact Option.some.inj this

def string : Codec String where
  encode := String.toList
  decode cs := some (String.ofList cs)
  decode_encode _ := congrArg some String.ofList_toList

/-! ## Numbers -/

def natText (n : Nat) : List Char := Nat.toDigits 10 n

def readNat (cs : List Char) : Option Nat :=
  if cs ≠ [] ∧ cs.all Char.isDigit then some (Nat.ofDigitChars 10 cs 0) else none

theorem natText_digits (n : Nat) : (natText n).all Char.isDigit = true :=
  List.all_eq_true.mpr fun _ hc => Nat.isDigit_of_mem_toDigits (by omega) (by omega) hc

theorem natText_ne_nil (n : Nat) : natText n ≠ [] := by
  by_cases h : n < 10
  · rw [natText, Nat.toDigits_of_lt_base h]
    exact List.cons_ne_nil _ _
  · rw [natText, Nat.toDigits_of_base_le (by omega) (by omega)]
    simp

theorem readNat_natText (n : Nat) : readNat (natText n) = some n := by
  rw [readNat, if_pos ⟨natText_ne_nil n, natText_digits n⟩]
  exact congrArg some Nat.ofDigitChars_ten_toDigits

def nat : Codec Nat where
  encode := natText
  decode := readNat
  decode_encode := readNat_natText

def intText : Int → List Char
  | .ofNat n => natText n
  | .negSucc n => '-' :: natText (n + 1)

def readInt : List Char → Option Int
  | '-' :: cs => (readNat cs).map fun n => -(n : Int)
  | cs => (readNat cs).map Int.ofNat

theorem readInt_digits {cs : List Char} (h : cs.all Char.isDigit = true) :
    readInt cs = (readNat cs).map Int.ofNat := by
  cases cs with
  | nil => rfl
  | cons c cs =>
    have hc : c ≠ '-' := by
      rintro rfl
      exact absurd (List.all_eq_true.mp h '-' List.mem_cons_self) (by decide)
    rw [readInt]
    simpa using hc

theorem readInt_natText (n : Nat) : readInt (natText n) = some (n : Int) := by
  rw [readInt_digits (natText_digits n), readNat_natText]
  rfl

def int : Codec Int where
  encode := intText
  decode := readInt
  decode_encode
    | .ofNat n => readInt_natText n
    | .negSucc n => by
      rw [intText, readInt, readNat_natText]
      rfl

/-! ## Lists -/

theorem mapM_decode (c : Codec α) (l : List α) : (l.map c.encode).mapM c.decode = some l := by
  induction l with
  | nil => rfl
  | cons a l ih => simp [c.decode_encode, ih]

def list (c : Codec α) : Codec (List α) where
  encode l := listText (l.map c.encode)
  decode cs := (elements cs).mapM c.decode
  decode_encode l := by rw [(elements_listText _).2, mapM_decode]

/-- Each value takes two elements. -/
def flatten (c : Codec α) (e : Codec β) (l : List (α × β)) : List (List Char) :=
  l.flatMap fun x => [c.encode x.1, e.encode x.2]

def unflatten (c : Codec α) (e : Codec β) : List (List Char) → Option (List (α × β))
  | [] => some []
  | [_] => none
  | s :: t :: ts => do
    let a ← c.decode s
    let b ← e.decode t
    let l ← unflatten c e ts
    return (a, b) :: l

theorem unflatten_flatten (c : Codec α) (e : Codec β) (l : List (α × β)) :
    unflatten c e (flatten c e l) = some l := by
  induction l with
  | nil => rfl
  | cons x l ih =>
    have hcons : flatten c e (x :: l) = c.encode x.1 :: e.encode x.2 :: flatten c e l := rfl
    rw [hcons, unflatten, c.decode_encode, e.decode_encode, ih]
    rfl

def pairs (c : Codec α) (e : Codec β) : Codec (List (α × β)) where
  encode l := listText (flatten c e l)
  decode cs := unflatten c e (elements cs)
  decode_encode l := by rw [(elements_listText _).2, unflatten_flatten]

/-- Pairs are never written as a single word. -/
theorem pairs_encode_ne (c : Codec α) (e : Codec β) (l : List (α × β)) {w : List Char}
    (hw : elements w = [w]) : (pairs c e).encode l ≠ w := by
  intro h
  have helements : elements ((pairs c e).encode l) = flatten c e l := (elements_listText _).2
  rw [h, hw] at helements
  cases l with
  | nil => cases helements
  | cons x l => cases helements

/-- The pairs of a dictionary. -/
def entries (m : AList fun _ : α => β) : List (α × β) := m.entries.map fun x => (x.1, x.2)

def entry (x : α × β) : Sigma fun _ : α => β := ⟨x.1, x.2⟩

def toDict [DecidableEq α] (l : List (α × β)) : Option (AList fun _ : α => β) :=
  if h : (l.map entry).keys.Nodup then some ⟨l.map entry, h⟩ else none

theorem toDict_entries [DecidableEq α] (m : AList fun _ : α => β) : toDict (entries m) = some m := by
  have hmap : (entries m).map entry = m.entries := by
    rw [entries, List.map_map]
    exact List.map_id _
  have hnodup : ((entries m).map entry).keys.Nodup := by
    rw [hmap]
    exact m.nodupKeys
  rw [toDict, dif_pos hnodup]
  exact congrArg some (AList.ext hmap)

def dict [DecidableEq α] (c : Codec α) (e : Codec β) : Codec (AList fun _ : α => β) where
  encode m := (pairs c e).encode (entries m)
  decode cs := (pairs c e).decode cs >>= toDict
  decode_encode m := by
    rw [(pairs c e).decode_encode, Option.bind_eq_bind, Option.bind_some, toDict_entries]

end Codec
