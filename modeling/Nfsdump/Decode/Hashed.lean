/-
  Nfsdump.Decode.Hashed — what becomes of a path when names are hashed.

  The loop of `print_string` hands over each segment with the slash in front of it, the last
  one behind the loop, and `print_path_segment` takes the slash off again. `componentText` is
  what a path's component turns into: the empty one, `.` and `..` stay.

  Proved, for every NUL-terminated string:
  - `namePieces_join`: the segments are the components with a slash between them;
  - `print_string_hashed`: between the quotes stands the path split at each slash, every
    component replaced, joined again; the text has the path's slashes and no others.
-/

import Nfsdump.Decode.Names
import Nfsdump.Decode.V3
import Nfsdump.Lib.Digits

namespace Nfsdump.Decode

open Wire

variable {o : Opts}

/-! ## Components -/

/-- Two upper-case hex digits. -/
def upperHex (b : UInt8) : List Char :=
  let digits := "0123456789ABCDEF".toList
  [digits.getD (b.toNat / 16) '0', digits.getD (b.toNat % 16) '0']

/-- What a component of a path is replaced by. -/
def componentText (o : Opts) (comp : List UInt8) : List Char :=
  if comp = [] ∨ comp = [DOT] ∨ comp = [DOT, DOT] then comp.map fun b => Char.ofNat b.toNat
  else (o.sha1 comp).flatMap upperHex

theorem text_X02 (b : UInt8) : (Piece.X02 b).text = upperHex b := by
  revert b
  apply byte_forall
  decide +kernel

theorem slash_notMem_upperHex (b : UInt8) : '/' ∉ upperHex b := by
  revert b
  apply byte_forall
  decide +kernel

theorem text_component (comp : List UInt8) : text (componentPieces o comp) = componentText o comp := by
  by_cases h0 : comp = []
  · subst h0
    rfl
  by_cases h1 : comp = [DOT]
  · subst h1
    rfl
  by_cases h2 : comp = [DOT, DOT]
  · subst h2
    rfl
  rw [componentPieces, if_neg h0, if_neg h1, if_neg h2, componentText, if_neg (by simp [h0, h1, h2]), text, List.flatMap_map]
  congr 1
  funext b
  exact text_X02 b

theorem slash_notMem_component (comp : List UInt8) : '/' ∉ componentText o comp := by
  rw [componentText]
  split
  · rename_i h
    rcases h with rfl | rfl | rfl
    · decide
    · decide
    · decide
  · intro hmem
    obtain ⟨b, -, hb⟩ := List.mem_flatMap.mp hmem
    exact slash_notMem_upperHex b hb

/-! ## Segments and components -/

/-- The components of a path, each replaced, with a slash between them. -/
def joinPieces (o : Opts) (s : List UInt8) : List Piece :=
  [.lit "/"].intercalate ((s.splitOn SLASH).map (componentPieces o))

theorem joinPieces_last {comp : List UInt8} (h : SLASH ∉ comp) : joinPieces o comp = componentPieces o comp := by
  rw [joinPieces, List.splitOn_eq_singleton h, List.map_singleton, List.intercalate_singleton]

theorem joinPieces_slash {comp : List UInt8} (h : SLASH ∉ comp) (rest : List UInt8) :
    joinPieces o (comp ++ SLASH :: rest) = componentPieces o comp ++ .lit "/" :: joinPieces o rest := by
  have hne : (rest.splitOn SLASH).map (componentPieces o) ≠ [] := by
    rw [ne_eq, List.map_eq_nil_iff]
    exact List.splitOn_ne_nil SLASH rest
  rw [joinPieces, List.splitOn_append_cons_self, List.splitOn_eq_singleton h, List.singleton_append, List.map_cons,
    List.intercalate_cons_of_ne_nil hne, List.append_assoc]
  rfl

theorem segmentPieces_first {comp : List UInt8} (h : SLASH ∉ comp) : segmentPieces o comp = componentPieces o comp := by
  cases comp with
  | nil => rfl
  | cons c comp =>
    have hc : c ≠ SLASH := fun hc => h (by simp [hc])
    rw [segmentPieces, if_neg hc]

/-- The segment so far is a component, the first one without its slash. -/
theorem segments_join (comp rest : List UInt8) (h : SLASH ∉ comp) :
    (segmentsFrom comp rest).flatMap (segmentPieces o) = joinPieces o (comp ++ rest) ∧
      (segmentsFrom (SLASH :: comp) rest).flatMap (segmentPieces o) = .lit "/" :: joinPieces o (comp ++ rest) := by
  induction rest generalizing comp with
  | nil =>
    rw [List.append_nil, joinPieces_last h]
    constructor
    · rw [segmentsFrom, List.flatMap_singleton, segmentPieces_first h]
    · rw [segmentsFrom, List.flatMap_singleton, segmentPieces, if_pos rfl]
  | cons c rest ih =>
    by_cases hc : c = SLASH
    · subst hc
      have hnext : (segmentsFrom [SLASH] rest).flatMap (segmentPieces o) = .lit "/" :: joinPieces o rest :=
        (ih [] List.not_mem_nil).2
      rw [joinPieces_slash h]
      constructor
      · cases comp with
        | nil =>
          rw [segmentsFrom, if_neg (by simp)]
          exact hnext
        | cons d comp =>
          rw [segmentsFrom, if_pos (by simp), List.flatMap_cons, hnext, segmentPieces_first h]
      · rw [segmentsFrom, if_pos (by simp), List.flatMap_cons, hnext, segmentPieces, if_pos rfl]
        rfl
    · have hcomp : SLASH ∉ comp ++ [c] := by
        intro hmem
        rcases List.mem_append.mp hmem with hmem | hmem
        · exact h hmem
        · exact hc (List.mem_singleton.mp hmem).symm
      obtain ⟨hfirst, hlater⟩ := ih (comp ++ [c]) hcomp
      rw [List.append_assoc, List.singleton_append] at hfirst hlater
      constructor
      · rw [segmentsFrom, if_neg (fun hx => hc hx.1)]
        exact hfirst
      · rw [segmentsFrom, if_neg (fun hx => hc hx.1)]
        exact hlater

theorem namePieces_join (hraw : o.RAWNAMES = false) (s : List UInt8) : namePieces o s = joinPieces o s := by
  rw [namePieces, hraw, if_neg Bool.false_ne_true]
  exact (segments_join [] s List.not_mem_nil).1

theorem text_intercalate (sep : Piece) (pss : List (List Piece)) :
    text ([sep].intercalate pss) = sep.text.intercalate (pss.map text) := by
  induction pss with
  | nil => rfl
  | cons ps pss ih =>
    cases pss with
    | nil => simp
    | cons qs pss =>
      rw [List.intercalate_cons_cons, text_append, text_append, ih]
      simp only [List.map_cons, List.intercalate_cons_cons, text_cons, text_nil, List.append_nil]

/-- A path with its components replaced. -/
def hashedPath (o : Opts) (s : List UInt8) : List Char := ['/'].intercalate ((s.splitOn SLASH).map (componentText o))

theorem text_namePieces (hraw : o.RAWNAMES = false) (s : List UInt8) : text (namePieces o s) = hashedPath o s := by
  rw [namePieces_join hraw, joinPieces, text_intercalate, List.map_map, hashedPath]
  congr 2
  funext comp
  exact text_component comp

/-- Replacing a component brings no slash in. -/
theorem splitOn_hashedPath (s : List UInt8) : (hashedPath o s).splitOn '/' = (s.splitOn SLASH).map (componentText o) := by
  apply List.splitOn_intercalate
  · intro t ht
    obtain ⟨comp, -, rfl⟩ := List.mem_map.mp ht
    exact slash_notMem_component comp
  · rw [ne_eq, List.map_eq_nil_iff]
    exact List.splitOn_ne_nil SLASH s

/-! ## NUL-terminated strings -/

/-- `s` and its NUL lie at `str`. -/
structure CString (str : Ptr) (s : List UInt8) : Prop where
  ne : str.addr ≠ 0
  fits : str.Fits s.length
  holds : str.Holds (s ++ [0])
  noNul : 0 ∉ s

theorem CString.nameAt {str : Ptr} {s : List UInt8} (h : CString str s) : NameAt str s :=
  ⟨h.ne, h.fits, Ptr.holds_left h.holds⟩

theorem strlen_nul {s : List UInt8} (h : 0 ∉ s) : strlen (s ++ [0]) = s.length := by
  have hall : ∀ b ∈ s, decide (b ≠ 0) = true := fun b hb => decide_eq_true fun h0 => h (h0 ▸ hb)
  rw [strlen, List.takeWhile_append_of_pos hall, List.takeWhile_cons_of_neg (by simp), List.append_nil]

/-- The byte behind an empty string is its NUL. -/
theorem CString.not_slash {str : Ptr} {s : List UInt8} (h : CString str s) (hempty : s = []) : str.byte 0 ≠ SLASH := by
  subst hempty
  rw [show str.byte 0 = 0 from h.holds 0 (Nat.zero_lt_one)]
  decide

/-- A path keeps its slashes, and each of its components turns into its own text. -/
theorem print_string_hashed {str : Ptr} {s : List UInt8} (h : CString str s) (hraw : o.RAWNAMES = false) :
    ∃ ps, Says (print_string o str (UInt32.ofNat (strlen (s ++ [0])))) ps () ∧
      text ps = ['"'] ++ ['/'].intercalate ((s.splitOn SLASH).map (componentText o)) ++ ['"', ' '] ∧
      (['/'].intercalate ((s.splitOn SLASH).map (componentText o))).splitOn '/' = (s.splitOn SLASH).map (componentText o) := by
  have hsays := says_print_string (o := o) h.nameAt fun hempty _ => h.not_slash hempty
  refine ⟨quoted o s, ?_, ?_, splitOn_hashedPath s⟩
  · rw [strlen_nul h.noNul]
    exact hsays
  · rw [quoted, text_append, text_append, text_namePieces hraw]
    rfl

/-- `/a//.`. -/
theorem print_string_hashed_sample :
    ∃ ps, Says (print_string
        ⟨false, false, false, fun _ => [0x86, 0xf7, 0xe4, 0x37, 0xfa, 0xa5, 0xa7, 0xfc, 0xe1, 0x5d, 0x1d, 0xdc, 0xb9, 0xea, 0xea,
          0xea, 0x37, 0x76, 0x67, 0xb8]⟩
        (Ptr.placed 0x8050000 [47, 97, 47, 47, 46, 0]) (UInt32.ofNat (strlen [47, 97, 47, 47, 46, 0]))) ps () ∧
      text ps = "\"/86F7E437FAA5A7FCE15D1DDCB9EAEAEA377667B8//.\" ".toList := by
  have hstr : CString (Ptr.placed 0x8050000 [47, 97, 47, 47, 46, 0]) [47, 97, 47, 47, 46] :=
    ⟨by decide, by unfold Ptr.Fits; decide, Ptr.placed_holds (by decide) _, by decide⟩
  obtain ⟨ps, hsays, htext, -⟩ := print_string_hashed (o := ⟨false, false, false, fun _ => [0x86, 0xf7, 0xe4, 0x37, 0xfa, 0xa5,
    0xa7, 0xfc, 0xe1, 0x5d, 0x1d, 0xdc, 0xb9, 0xea, 0xea, 0xea, 0x37, 0x76, 0x67, 0xb8]⟩) hstr rfl
  refine ⟨ps, hsays, htext.trans ?_⟩
  decide +kernel

end Nfsdump.Decode
