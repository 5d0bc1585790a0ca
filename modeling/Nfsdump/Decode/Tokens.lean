/-
  Nfsdump.Decode.Tokens — the two printed forms of a file handle.

  Calls and listings print a decoded handle byte by byte (`print_fh3_x`). Replies print it
  from the payload, word by word (`print_fh3`), and a handle's last word is filled up with
  zeros. pathtree takes the two for one string.

  Proved, for every handle and wherever it lies:
  - `says_fh3`: a reply prints the handle and its padding;
  - `one_token_iff`: the forms agree, and tell handles apart, iff no handle is padded.
-/

import Nfsdump.Lib.Digits
import Nfsdump.Decode.Reply3
import Nfsdump.Decode.Words

namespace Nfsdump.Decode

open Wire Xdr

/-! ## Hexadecimal text -/

/-- Two digits for each byte. -/
def hexBytes (bs : List UInt8) : List Char := bs.flatMap fun b => Digits.fixed 16 2 b.toNat

@[simp] theorem hexBytes_append (xs ys : List UInt8) : hexBytes (xs ++ ys) = hexBytes xs ++ hexBytes ys := List.flatMap_append

@[simp] theorem hexBytes_length (bs : List UInt8) : (hexBytes bs).length = 2 * bs.length := by
  induction bs with
  | nil => rfl
  | cons b bs ih =>
    show (Digits.fixed 16 2 b.toNat ++ hexBytes bs).length = _
    rw [List.length_append, ih, Digits.fixed_length, List.length_cons]
    omega

theorem hexBytes_injective {xs ys : List UInt8} (h : hexBytes xs = hexBytes ys) : xs = ys := by
  have hlen := congrArg List.length h
  rw [hexBytes_length, hexBytes_length] at hlen
  induction xs generalizing ys with
  | nil => cases ys with
    | nil => rfl
    | cons y ys => simp at hlen
  | cons x xs ih => cases ys with
    | nil => simp at hlen
    | cons y ys =>
      obtain ⟨hx, hxs⟩ := List.append_inj (show Digits.fixed 16 2 x.toNat ++ hexBytes xs = Digits.fixed 16 2 y.toNat ++ hexBytes ys
        from h) (by simp)
      have hxy := Digits.fixed_injective (by decide) (show x.toNat < 16 ^ 2 from x.toNat_lt) (show y.toNat < 16 ^ 2 from y.toNat_lt) hx
      rw [UInt8.toNat.inj hxy, ih hxs (by simpa using hlen)]

theorem text_x0 {k : Nat} (hk : 0 < k) {w : UInt32} (hw : w.toNat < 16 ^ k) : (Piece.x0 k w).text = Digits.fixed 16 k w.toNat :=
  Digits.pad_toDigits (by decide) hk hw

/-- A word's eight digits are its bytes'. -/
theorem text_word (w : UInt32) : (Piece.x0 8 w).text = hexBytes (octets w) := by
  have hlt := w.toNat_lt
  have parts : ∀ x y : Nat, y < 16 ^ 2 → ∀ j, Digits.fixed 16 (j + 2) (x * 16 ^ 2 + y) = Digits.fixed 16 j x ++ Digits.fixed 16 2 y :=
    fun x y hy j => Digits.fixed_add (by decide) hy
  have hbyte : ∀ n : Nat, (UInt8.ofNat n).toNat = n % 16 ^ 2 := fun n => UInt8.toNat_ofNat'
  have hsum : w.toNat = ((w.toNat / 2 ^ 24 * 16 ^ 2 + w.toNat / 2 ^ 16 % 16 ^ 2) * 16 ^ 2 + w.toNat / 2 ^ 8 % 16 ^ 2) * 16 ^ 2 +
      w.toNat % 16 ^ 2 := by omega
  rw [text_x0 (by decide) (by omega), hsum, parts _ _ (by omega), parts _ _ (by omega), parts _ _ (by omega)]
  simp only [hexBytes, octets, List.flatMap_cons, List.flatMap_nil, hbyte, List.append_nil, List.append_assoc]
  rw [Nat.mod_eq_of_lt (show w.toNat / 2 ^ 24 < 16 ^ 2 by omega)]

theorem text_words (ws : List UInt32) : text (ws.map (.x0 8)) = hexBytes (wire ws) := by
  induction ws with
  | nil => rfl
  | cons w ws ih => rw [List.map_cons, text_cons, ih, text_word, wire_cons, hexBytes_append]

theorem text_bytes (bs : List UInt8) : text (bs.map fun b => .x0 2 b.toUInt32) = hexBytes bs := by
  induction bs with
  | nil => rfl
  | cons b bs ih =>
    have hb : b.toUInt32.toNat = b.toNat := UInt8.toNat_toUInt32 b
    rw [List.map_cons, text_cons, ih, text_x0 (by decide) (by rw [hb]; exact b.toNat_lt), hb]
    rfl

/-! ## Handles -/

/-- What a reply prints of a handle. -/
def handlePieces (f : NfsFh3) : List Piece := (pack f.data).map (.x0 8) ++ [.lit " "]

theorem text_handlePieces (f : NfsFh3) : text (handlePieces f) = hexBytes (f.data ++ padding f.data.length) ++ [' '] := by
  rw [handlePieces, text_append, text_words, wire_pack]
  rfl

theorem text_fh3_x (f : NfsFh3) (s : String) : text (out (print_fh3_x f s)) = s.toList ++ ' ' :: (hexBytes f.data ++ [' ']) := by
  rw [print_fh3_x, out_fprintf_bind, out_fprintf_bind, out_fprintf, text_append, text_append, text_bytes]
  simp [text, Piece.text]

section Handles

variable {p : Ptr} {n i : Nat}

theorem wordPieces_eq {w : Nat → UInt32} {ws : List UInt32} (h : At w i ws) : wordPieces w i ws.length = ws.map (.x0 8) := by
  refine List.ext_getElem (by simp [wordPieces]) fun j h1 h2 => ?_
  simp only [wordPieces, List.getElem_map, List.getElem_range]
  rw [h j (by simpa using h2)]

theorem opaqueWords_pack (bs : List UInt8) (h : bs.length < 2 ^ 32) : opaqueWords (UInt32.ofNat bs.length) = (pack bs).length := by
  rw [opaqueWords, toNat_ofNat_lt h, pack_length]

theorem NfsFh3.length_lt (f : NfsFh3) : f.data.length < 2 ^ 32 := lt_of_le_of_lt f.le (by decide)

theorem handleSize_eq {f : NfsFh3} (h : At (wordAt p) i f.xdr) : handleSize (wordAt p) i = f.xdr.length := by
  obtain ⟨hlen, -⟩ := at_cons.mp h
  rw [handleSize, hlen, opaqueWords_pack _ f.length_lt, NfsFh3.xdr, counted, List.length_cons, Nat.add_comm]

/-- A handle that lies in the payload, with a word behind its length. -/
structure Occurs (p : Ptr) (n i : Nat) (f : NfsFh3) : Prop where
  mapped : Mapped p n
  lies : At (wordAt p) i f.xdr
  ends : i + f.xdr.length ≤ n
  two : i + 2 ≤ n

theorem Occurs.not_wraps {f : NfsFh3} (h : Occurs p n i f) : ¬ HandleWraps p i := by
  have htop := h.mapped.top
  have hends := h.ends
  rw [← handleSize_eq h.lies, handleSize] at hends
  unfold HandleWraps
  omega

/-- A reply prints the words of a handle. -/
theorem says_fh3 {f : NfsFh3} (h : Occurs p n i f) :
    Says (print_fh3 (cur p i) (cur p n) true) (handlePieces f) (cur p (i + f.xdr.length)) := by
  have hsize := handleSize_eq h.lies
  have hends := h.ends
  have htwo := h.two
  obtain ⟨hlen, hdata⟩ := at_cons.mp h.lies
  constructor
  · rw [fh3_val h.mapped (by omega) (fun _ => h.not_wraps), if_pos ⟨htwo, by omega⟩, hsize]
  · rw [fh3_out h.mapped htwo (by omega), if_pos rfl, hlen, opaqueWords_pack _ f.length_lt, wordPieces_eq hdata]
    rfl

/-! ## The two forms -/

/-- What a reply and a call print for a handle. -/
def replyText (p : Ptr) (n i : Nat) : List Char := text (out (print_fh3 (cur p i) (cur p n) true))
def callText (f : NfsFh3) (fh_str : String) : List Char := text (out (print_fh3_x f fh_str))

theorem replyText_eq {f : NfsFh3} (h : Occurs p n i f) :
    replyText p n i = hexBytes (f.data ++ padding f.data.length) ++ [' '] := by
  rw [replyText, (says_fh3 h).2, text_handlePieces]

theorem padding_eq_nil {k : Nat} : padding k = [] ↔ k % 4 = 0 := by
  rw [padding, List.replicate_eq_nil_iff]
  omega

/-- The forms of one handle agree iff it needs no padding. -/
theorem forms_agree_iff {f : NfsFh3} (h : Occurs p n i f) (s : String) :
    callText f s = s.toList ++ ' ' :: replyText p n i ↔ f.data.length % 4 = 0 := by
  rw [callText, text_fh3_x, replyText_eq h, ← padding_eq_nil]
  constructor
  · intro heq
    have htok := List.append_cancel_right (List.cons_inj_right _ |>.mp (List.append_cancel_left heq))
    have hbytes := hexBytes_injective htok
    exact List.append_cancel_left (hbytes.symm.trans (List.append_nil _).symm)
  · intro hpad
    rw [hpad, List.append_nil]

theorem callText_injective {f g : NfsFh3} {s : String} (h : callText f s = callText g s) : f = g := by
  rw [callText, callText, text_fh3_x, text_fh3_x] at h
  have hbytes := hexBytes_injective (List.append_cancel_right (List.cons_inj_right _ |>.mp (List.append_cancel_left h)))
  cases f
  cases g
  simpa using hbytes

variable {q : Ptr} {m j : Nat}

/-- For both of two handles the forms agree, and different handles are told apart in either
    form, iff neither handle is padded. -/
theorem one_token_iff {f g : NfsFh3} (hf : Occurs p n i f) (hg : Occurs q m j g) (s : String) :
    (callText f s = s.toList ++ ' ' :: replyText p n i ∧ callText g s = s.toList ++ ' ' :: replyText q m j ∧
      (f ≠ g → replyText p n i ≠ replyText q m j ∧ callText f s ≠ callText g s)) ↔
      f.data.length % 4 = 0 ∧ g.data.length % 4 = 0 := by
  constructor
  · rintro ⟨h1, h2, -⟩
    exact ⟨(forms_agree_iff hf s).mp h1, (forms_agree_iff hg s).mp h2⟩
  · rintro ⟨h1, h2⟩
    have ef := (forms_agree_iff hf s).mpr h1
    have eg := (forms_agree_iff hg s).mpr h2
    refine ⟨ef, eg, fun hne => ⟨fun he => hne ?_, fun he => hne (callText_injective he)⟩⟩
    apply callText_injective (s := s)
    rw [ef, eg, he]

/-- A handle of one byte: a call prints 01, a reply 01000000, as it does for the handle with
    a zero behind that byte. -/
theorem short_handle_forms :
    callText ⟨[1], by decide⟩ "fh" ≠ "fh".toList ++ ' ' :: replyText ⟨0x8050000, fun i => [0, 0, 0, 1, 1].getD i.toNat 0⟩ 2 0 ∧
    replyText ⟨0x8050000, fun i => [0, 0, 0, 1, 1].getD i.toNat 0⟩ 2 0 =
      replyText ⟨0x8050000, fun i => [0, 0, 0, 2, 1].getD i.toNat 0⟩ 2 0 := by
  have f1 : Occurs ⟨0x8050000, fun i => [0, 0, 0, 1, 1].getD i.toNat 0⟩ 2 0 ⟨[1], by decide⟩ :=
    ⟨⟨by decide, by decide⟩, by simp only [NfsFh3.xdr, counted, pack, at_cons, at_nil]; decide, by decide, by decide⟩
  have f2 : Occurs ⟨0x8050000, fun i => [0, 0, 0, 2, 1].getD i.toNat 0⟩ 2 0 ⟨[1, 0], by decide⟩ :=
    ⟨⟨by decide, by decide⟩, by simp only [NfsFh3.xdr, counted, pack, at_cons, at_nil]; decide, by decide, by decide⟩
  refine ⟨(forms_agree_iff f1 "fh").not.mpr (by decide), ?_⟩
  rw [replyText_eq f1, replyText_eq f2]
  rfl

/-- Two handles of four bytes. -/
theorem whole_handle_forms :
    callText ⟨[1, 2, 3, 4], by decide⟩ "fh" = "fh".toList ++ ' ' ::
      replyText ⟨0x8050000, fun i => [0, 0, 0, 4, 1, 2, 3, 4].getD i.toNat 0⟩ 2 0 ∧
    callText ⟨[1, 2, 3, 5], by decide⟩ "fh" = "fh".toList ++ ' ' ::
      replyText ⟨0x8050000, fun i => [0, 0, 0, 4, 1, 2, 3, 5].getD i.toNat 0⟩ 2 0 := by
  have f1 : Occurs ⟨0x8050000, fun i => [0, 0, 0, 4, 1, 2, 3, 4].getD i.toNat 0⟩ 2 0 ⟨[1, 2, 3, 4], by decide⟩ :=
    ⟨⟨by decide, by decide⟩, by simp only [NfsFh3.xdr, counted, pack, at_cons, at_nil]; decide, by decide, by decide⟩
  have f2 : Occurs ⟨0x8050000, fun i => [0, 0, 0, 4, 1, 2, 3, 5].getD i.toNat 0⟩ 2 0 ⟨[1, 2, 3, 5], by decide⟩ :=
    ⟨⟨by decide, by decide⟩, by simp only [NfsFh3.xdr, counted, pack, at_cons, at_nil]; decide, by decide, by decide⟩
  have h := (one_token_iff f1 f2 "fh").mpr ⟨by decide, by decide⟩
  exact ⟨h.1, h.2.1⟩

end Handles

end Nfsdump.Decode
