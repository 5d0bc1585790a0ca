/-
  Nfsdump.Anonymize.SamePairs — `Parser` of pathtree on an anonymized dump.

  A dump is `Tabular` where the csv format and the anonymizer's own splitting find the same
  columns: the head of a record in cells of its own, each word of the rest one cell, in
  quotes or without, and every address a host and a port. The records written for such a
  dump are in the csv format again, and have other addresses that are as different as before.

  Proved (`same_pairs`): from the anonymized files, each the only one of its process,
  `Parser` makes the pairs of calls and replies that it makes from the files.
-/

import Nfsdump.Anonymize.ReadBack
import Nfsdump.Pathtree.OtherClients

namespace Nfsdump.Anonymize

open Renaming Words
open Decode (isBlank Nonblank)
open Pathtree (Cell Row cell Mode ReadsCsv Parser PassedOver Printed OtherClients Apart SamePair callKey run_append_some run_plain
  run_inQuotes inQuotes ordinary bareText)

variable {ν : Kind → Text → Text} {σ : Text → Text} {w t l : Text} {p : Split} {row row' : Row}

/-! ## Words that are one cell -/

/-- One cell, in quotes or without. -/
def CsvWord (w : Text) (c : Cell) : Prop := Pathtree.run .start w = some (.plain c, []) ∨ Pathtree.run .start w = some (.closed c, [])

theorem CsvWord.fields {c : Cell} (h : CsvWord w c) (rest : Text) :
    Pathtree.fields (w ++ ' ' :: rest) = (Pathtree.fields rest).map (c :: ·) := by
  have hcell : Pathtree.Cells (w ++ [' ']) [c] := by
    rcases h with h | h
    · rw [Pathtree.Cells, run_append_some h]
      rfl
    · rw [Pathtree.Cells, run_append_some h]
      rfl
  rw [← List.singleton_append, ← List.append_assoc, Pathtree.fields_cells hcell]
  rfl

theorem csvWord_plain (h : ∀ c ∈ w, ordinary c) (hne : w ≠ []) : CsvWord w w := Or.inl (run_plain h hne)

theorem fields_blank (rest : Text) : Pathtree.fields (' ' :: rest) = (Pathtree.fields rest).map ([] :: ·) := by
  have h : Pathtree.Cells [' '] [[]] := rfl
  exact Pathtree.fields_cells h rest

theorem fields_join {ts : List Text} (h : ∀ w ∈ ts, ∃ c, CsvWord w c) {rest : Text} (hrest : Pathtree.fields rest ≠ none) :
    Pathtree.fields (join ' ' ts ++ ' ' :: rest) ≠ none := by
  induction ts with
  | nil =>
    show Pathtree.fields (' ' :: rest) ≠ none
    rw [fields_blank, ne_eq, Option.map_eq_none_iff]
    exact hrest
  | cons t ts ih =>
    rw [List.forall_mem_cons] at h
    obtain ⟨⟨c, hc⟩, hts⟩ := h
    have hnext := ih hts
    cases ts with
    | nil =>
      rw [show join ' ' [t] = t by simp [join], hc.fields, ne_eq, Option.map_eq_none_iff]
      exact hrest
    | cons u us =>
      have hjoin : join ' ' (t :: u :: us) = t ++ ' ' :: join ' ' (u :: us) := by
        unfold join
        rw [List.intercalate_cons_of_ne_nil (List.cons_ne_nil _ _), List.append_assoc]
        rfl
      rw [hjoin, List.append_assoc, List.cons_append, hc.fields, ne_eq, Option.map_eq_none_iff]
      exact hnext

/-! ## Names in quotes -/

/-- In quotes the text stays in them. -/
def QuoteSafe (t : Text) : Prop := ∀ v, ∃ v', Pathtree.run (.quoted v) t = some (.quoted v', [])

theorem QuoteSafe.append {s : Text} (hs : QuoteSafe s) (ht : QuoteSafe t) : QuoteSafe (s ++ t) := by
  intro v
  obtain ⟨v₁, h₁⟩ := hs v
  obtain ⟨v₂, h₂⟩ := ht v₁
  refine ⟨v₂, ?_⟩
  rw [run_append_some h₁, h₂]
  rfl

theorem quoteSafe_of (h : ∀ c ∈ t, inQuotes c = true) : QuoteSafe t := fun v => ⟨v ++ t, run_inQuotes h v⟩

/-- The blank that a mail folder's name has is written as an escape. -/
theorem quoteSafe_escape : QuoteSafe "\\20".toList := fun v => ⟨_, Pathtree.run_escaped 0x20 v⟩

theorem pasted_quoteSafe : Pasted QuoteSafe where
  nil := fun v => ⟨v, rfl⟩
  append := QuoteSafe.append
  piece := by
    have plain : ∀ t ∈ pieces, (∀ c ∈ t, inQuotes c = true) ∨ t = "Sent".toList ++ ("\\20".toList ++ "Items".toList) ∨
        t = "Saved".toList ++ ("\\20".toList ++ "Files".toList) := by decide +kernel
    intro t ht
    rcases plain t ht with h | rfl | rfl
    · exact quoteSafe_of h
    · exact (quoteSafe_of (by decide)).append (quoteSafe_escape.append (quoteSafe_of (by decide)))
    · exact (quoteSafe_of (by decide)).append (quoteSafe_escape.append (quoteSafe_of (by decide)))

theorem csvWord_quote (h : QuoteSafe t) : ∃ c, CsvWord (quote t) c := by
  obtain ⟨c, hc⟩ := h []
  refine ⟨c, Or.inr ?_⟩
  show (Pathtree.run (.quoted []) (t ++ ['"'])).map _ = _
  rw [run_append_some hc]
  rfl

/-! ## The words that are written -/

theorem ordinary_digits {b n : Nat} (hb : 1 < b) (hb' : b ≤ 16) : ∀ c ∈ Nat.toDigits b n, ordinary c = true :=
  Pathtree.ordinary_of_bare (Pathtree.bareText_toDigits hb hb') (Decode.nonblank_toDigits hb hb')

/-- A host's name and an id's are in plain characters. -/
theorem ordinary_naming (ks : Keys) {kind : Kind} (hkind : kind ≠ .word) (k : Text) : ∀ c ∈ naming ks kind k, ordinary c = true := by
  rcases naming_cases ks kind k with h | h | ⟨i, h⟩
  · rw [h]
    exact fun c hc => absurd hc List.not_mem_nil
  · have unmapped : ∀ kind : Kind, kind ≠ .word → ∀ t ∈ kind.unmapped, ∀ c ∈ t, ordinary c = true := fun kind => by
      cases kind <;> decide
    exact unmapped kind hkind _ h
  · rw [h]
    cases kind with
    | word => exact absurd rfl hkind
    | host => exact ordinary_digits (by decide) (by decide)
    | uid => exact ordinary_digits (by decide) (by decide)
    | gid => exact ordinary_digits (by decide) (by decide)
    | fileid => exact ordinary_digits (by decide) (by decide)

theorem quoteSafe_naming (ks : Keys) (k : Text) : QuoteSafe (naming ks .word k) := by
  rcases naming_cases ks .word k with h | h | ⟨i, h⟩
  · rw [h]
    exact pasted_quoteSafe.nil
  · exact pasted_quoteSafe.piece _ (List.mem_append_right _ (List.mem_append_right _ h))
  · rw [h]
    refine quoteSafe_of fun c hc => ?_
    have digits : ∀ d ∈ "0123456789abcdef".toList, inQuotes d = true := by decide
    exact digits c (mem_hex4 (n := 0 + i) hc)

theorem csvWord_value (ks : Keys) {name val : Text} (hn : Named (naming ks) (valueKeys name val)) :
    ∃ c, CsvWord (renameValue (naming ks) name val) c := by
  have hword := word_value (clean_naming ks) hn
  unfold renameValue at hword ⊢
  split
  · next h =>
    rw [if_pos h] at hword
    exact ⟨_, csvWord_plain (ordinary_naming ks (by decide) val) hword.1⟩
  next h =>
  rw [if_neg h] at hword
  split
  · next h =>
    rw [if_pos h] at hword
    exact ⟨_, csvWord_plain (ordinary_naming ks (by decide) val) hword.1⟩
  next h =>
  rw [if_neg h] at hword
  split
  · next h =>
    rw [if_pos h] at hword
    exact ⟨_, csvWord_plain (ordinary_naming ks (by decide) val) hword.1⟩
  · exact csvWord_quote (pasted_quoteSafe.path (quoteSafe_naming ks) _)

theorem csvWord_data (ks : Keys) (data : List Text) (hd : ∀ w ∈ data, ∃ c, CsvWord w c) (hn : Named (naming ks) (dataKeys data)) :
    ∀ w ∈ renameData (naming ks) data, ∃ c, CsvWord w c := by
  induction data using dataKeys.induct with
  | case1 label val data ih =>
    rw [List.forall_mem_cons, List.forall_mem_cons] at hd
    rw [dataKeys] at hn
    rw [renameData, List.forall_mem_cons, List.forall_mem_cons]
    refine ⟨hd.1, ?_, ih hd.2.2 (hn.mono (List.subset_append_right _ _))⟩
    split
    · next h =>
      rw [if_pos h] at hn
      exact csvWord_value ks (hn.mono (List.subset_append_left _ _))
    · exact hd.2.1
  | case2 label hlabel =>
    rw [dataKeys, if_pos hlabel] at hn
    rw [renameData, if_pos hlabel, List.forall_mem_cons, List.forall_mem_singleton]
    exact ⟨hd label (List.mem_singleton_self _), csvWord_value ks hn⟩
  | case3 label hlabel =>
    rw [renameData, if_neg hlabel]
    exact hd
  | case4 => exact fun w hw => absurd hw List.not_mem_nil

theorem fields_body (ks : Keys) (hkept : ∀ w ∈ p.kept, ∃ c, CsvWord w c) (hn : Named (naming ks) (dataKeys p.data)) :
    Pathtree.fields (p.body (naming ks)) ≠ none := by
  have hdata : ∀ w ∈ p.data, ∃ c, CsvWord w c := by
    intro w hw
    refine hkept w ?_
    unfold Split.data at hw
    split at hw
    · exact hw
    · exact List.mem_of_mem_tail hw
  have htrailer : Pathtree.fields (trailer p) ≠ none := by
    unfold trailer
    split <;> decide
  have hrest := fields_join (csvWord_data ks p.data hdata hn) htrailer
  unfold Split.body
  split
  · exact hrest
  · next hc =>
    rw [List.append_assoc, List.append_assoc, List.singleton_append, Split.status, if_neg hc]
    rcases hk : p.kept with _ | ⟨s, kept⟩
    · rw [List.headD_nil, List.nil_append, fields_blank, ne_eq, Option.map_eq_none_iff]
      exact hrest
    · obtain ⟨c, hs⟩ := hkept s (by rw [hk]; exact List.mem_cons_self)
      rw [List.headD_cons, hs.fields, ne_eq, Option.map_eq_none_iff]
      exact hrest

/-! ## Addresses -/

/-- A host, a point and a port. -/
def IsAddress (a : Text) : Prop := a = hostOf a ++ '.' :: portOf a

theorem field_point (a : Text) (i : Nat) : '.' ∉ (split '.' a).getD i [] := by
  intro hc
  rw [List.getD_eq_getElem?_getD] at hc
  rcases hg : (split '.' a)[i]? with _ | f
  · rw [hg] at hc
    exact absurd hc List.not_mem_nil
  · rw [hg] at hc
    exact Fields.mem_fields (List.mem_of_getElem? hg) hc

/-- Three parts with points between them. -/
theorem points_unique {a b c a' b' c' : Text} (ha : '.' ∉ a) (hb : '.' ∉ b) (ha' : '.' ∉ a') (hb' : '.' ∉ b') :
    a ++ '.' :: (b ++ '.' :: c) = a' ++ '.' :: (b' ++ '.' :: c') ↔ a = a' ∧ b = b' ∧ c = c' := by
  have point : ∀ {y : Text}, '.' ∉ y → ∀ d ∈ y, d ≠ '.' := by
    rintro y hy d hd rfl
    exact hy hd
  constructor
  · intro h
    obtain ⟨h1, h⟩ := Digits.point_unique (point ha) (point ha') h
    obtain ⟨h2, h3⟩ := Digits.point_unique (point hb) (point hb') h
    exact ⟨h1, h2, h3⟩
  · rintro ⟨rfl, rfl, rfl⟩
    rfl

theorem host_injective {ks : Keys} {h h' : Text} (hh : (.host, h) ∈ ks) (hh' : (.host, h') ∈ ks)
    (he : naming ks .host h = naming ks .host h') : h = h' := by
  have unfixed : ∀ k, Kind.host.fixed k = none := fun k => if_neg List.not_mem_nil
  have asks : ∀ {k}, (Kind.host, k) ∈ ks → Kind.host.rename (asked Kind.host.fixed (ofKind ks .host)) k =
      some (naming ks .host k) := by
    intro k hk
    unfold naming
    rw [Kind.rename, rename_of_mem (unfixed k) (mem_asked.mpr ⟨mem_ofKind hk, unfixed k⟩), Option.getD_some]
  refine rename_injective supply_host_injective Kind.host.fixed_injective (fun _ _ f v hf => ?_) (asks hh) (he ▸ asks hh')
  rw [unfixed] at hf
  cases hf

/-- The addresses whose hosts have names. -/
def Addresses (ks : Keys) : Set Cell := {a | IsAddress a ∧ (.host, hostOf a) ∈ ks}

theorem host_point (ks : Keys) (k : Text) : '.' ∉ naming ks .host k := by
  rcases naming_cases ks .host k with h | h | ⟨i, h⟩
  · rw [h]
    exact List.not_mem_nil
  · exact absurd h List.not_mem_nil
  · rw [h]
    exact fun hc => Digits.ne_point_of_isDigit (Digits.isDigit_toDigits hc) rfl

theorem apart_naming (ks : Keys) : Apart (Addresses ks) (renameIADDR (naming ks)) := by
  rintro a ⟨ha, hk⟩ a' ⟨ha', hk'⟩ xid xid'
  have renamed : ∀ b x, callKey (renameIADDR (naming ks) b) x = naming ks .host (hostOf b) ++ '.' :: (portOf b ++ '.' :: x) := by
    intro b x
    rw [callKey, renameIADDR, List.append_assoc, List.cons_append]
  have plain : ∀ {b} x, IsAddress b → callKey b x = hostOf b ++ '.' :: (portOf b ++ '.' :: x) := by
    intro b x hb
    rw [callKey]
    conv_lhs => rw [hb]
    rw [List.append_assoc, List.cons_append]
  have host : ∀ b, '.' ∉ hostOf b := fun b => field_point b 0
  have port : ∀ b, '.' ∉ portOf b := fun b => field_point b 1
  rw [renamed, renamed, plain xid ha, plain xid' ha', points_unique (host_point ks _) (port a) (host_point ks _) (port a'),
    points_unique (host a) (port a) (host a') (port a')]
  constructor
  · rintro ⟨h, hrest⟩
    exact ⟨host_injective hk hk' h, hrest⟩
  · rintro ⟨h, hrest⟩
    exact ⟨congrArg (naming ks .host) h, hrest⟩

/-! ## Lines -/

/-- A line where csv and the anonymizer find the same columns, or one `Parser` passes over, as it
    does what is written for it. -/
inductive Tabular (l : Text) : Prop
  | record (p : Split) (row : Row) (hp : recordOf l = some p) (hl : l = l.dropLast ++ ['\n'])
      (hrow : Pathtree.csvRow l.dropLast = some row) (long : 8 ≤ row.length) (hfront : row.take 5 = p.fields.take 5)
      (hback : ¬ PassedOver row → row.take 8 = p.fields) (hheads : ∀ w ∈ p.fields, Printed w)
      (hkept : ∀ w ∈ p.kept, ∃ c, CsvWord w c) (hsrc : IsAddress p.src_addr) (hdes : IsAddress p.des_addr)
  | other (row : Row) (hp : recordOf l = none) (hl : l = l.dropLast ++ ['\n']) (hrow : Pathtree.csvRow l.dropLast = some row)
      (hover : PassedOver row)
      (hfunny : l.head?.any Char.isDigit → ∃ row', Pathtree.csvRow (funnyLine l.dropLast).dropLast = some row' ∧ PassedOver row')

/-- The rows of a record's line and of what is written for it. -/
def SameRecord (ls : List Text) (ν : Kind → Text → Text) (row row' : Row) : Prop :=
  ∃ l ∈ ls, ∃ p, recordOf l = some p ∧ Pathtree.csvRow l.dropLast = some row ∧ Pathtree.csvRow (p.rename ν).dropLast = some row' ∧
    ¬ PassedOver row

theorem cell_take {row row' : Row} {n i : Nat} (h : row.take n = row'.take n) (hi : i < n) : cell row i = cell row' i := by
  have hget : ∀ r : Row, (r.take n)[i]? = r[i]? := fun r => by rw [List.getElem?_take_of_lt hi]
  unfold Pathtree.cell
  rw [List.getD_eq_getElem?_getD, List.getD_eq_getElem?_getD, ← hget row, ← hget row', h]

theorem printed_port {a : Text} (ha : Printed a) : Printed (portOf a) := by
  have hsub : ∀ c ∈ portOf a, c ∈ a := by
    intro c hc
    unfold portOf at hc
    rw [List.getD_eq_getElem?_getD] at hc
    rcases hg : (split '.' a)[1]? with _ | f
    · rw [hg] at hc
      exact absurd hc List.not_mem_nil
    · rw [hg] at hc
      exact Fields.subset_fields (List.mem_of_getElem? hg) hc
  exact ⟨List.all_eq_true.mpr fun c hc => List.all_eq_true.mp ha.bare c (hsub c hc), fun c hc => ha.nonblank c (hsub c hc)⟩

theorem printed_of_ordinary (h : ∀ c ∈ w, ordinary c = true) : Printed w :=
  ⟨List.all_eq_true.mpr fun c hc => by rw [Pathtree.bareChar, h c hc, Bool.or_true], fun c hc => by
    have := h c hc
    simp only [ordinary, Bool.and_eq_true, Bool.not_eq_true'] at this
    exact this.1.1.1⟩

theorem printed_iaddr (ks : Keys) {a : Text} (ha : Printed a) : Printed (renameIADDR (naming ks) a) :=
  (printed_of_ordinary (ordinary_naming ks (by decide) _)).append (Pathtree.printed_point.append (printed_port ha))

/-- The row of what is written for a record begins with its head. -/
theorem row_rename {ks : Keys} (hheads : ∀ w ∈ p.fields, Printed w) (hkept : ∀ w ∈ p.kept, ∃ c, CsvWord w c)
    (hn : Named (naming ks) (dataKeys p.data)) :
    ∃ more, Pathtree.csvRow (p.rename (naming ks)).dropLast = some ((p.renamed (naming ks)).fields ++ more) := by
  obtain ⟨more, hmore⟩ := Option.ne_none_iff_exists'.mp (fields_body ks hkept hn)
  have hprinted : ∀ w ∈ (p.renamed (naming ks)).fields, Printed w := by
    simp only [Split.fields, List.forall_mem_cons] at hheads
    obtain ⟨htime, hsrc, hdes, hxpt, hproto, hxid, hnum, hname, -⟩ := hheads
    simp only [Split.fields, Split.renamed, List.forall_mem_cons]
    exact ⟨htime, printed_iaddr ks hsrc, printed_iaddr ks hdes, hxpt, hproto, hxid, hnum, hname, by simp⟩
  refine ⟨more.map Pathtree.decoded, ?_⟩
  rw [rename_line, List.dropLast_concat, Pathtree.csvRow, Pathtree.fields_cells (Pathtree.cells_words hprinted), hmore, Option.map_some,
    Option.map_some, List.map_append, Pathtree.map_decoded hprinted]

theorem passedOver_iff {row row' : Row} (h : 8 ≤ row.length) (h' : 8 ≤ row'.length)
    (hdir : cell row' Pathtree.OFFSET.DIRECTION = cell row Pathtree.OFFSET.DIRECTION) : PassedOver row' ↔ PassedOver row := by
  unfold PassedOver
  rw [hdir]
  constructor
  · exact fun hr => Or.inr (hr.resolve_left (Nat.not_lt.mpr h'))
  · exact fun hr => Or.inr (hr.resolve_left (Nat.not_lt.mpr h))

/-! ## Files -/

variable {csv : List Char → List Row}

/-- Line by line the rows are the same records', those passed over aside. -/
theorem rows_lines (hcsv : ReadsCsv csv) {ks : Keys} {all : List Text} (ls : List Text) (hall : ls ⊆ all) (hls : ∀ l ∈ ls, Tabular l)
    (hn : Named (naming ks) (ls.flatMap lineKeys)) :
    List.Forall₂ (SameRecord all (naming ks)) ((csv ls.flatten).filter fun row => ¬ PassedOver row)
      ((csv (ls.flatMap (renameLine (naming ks)))).filter fun row => ¬ PassedOver row) := by
  induction ls with
  | nil =>
    rw [List.flatten_nil, List.flatMap_nil, hcsv.done]
    exact .nil
  | cons l ls ih =>
    rw [List.forall_mem_cons] at hls
    rw [List.flatMap_cons] at hn
    have hrest := ih (List.Subset.trans (List.subset_cons_self _ _) hall) hls.2 (hn.mono (List.subset_append_right _ _))
    rw [List.flatten_cons, List.flatMap_cons]
    rcases hls.1 with ⟨p, row, hp, hl, hrow, long, hfront, hback, hheads, hkept, hsrc, hdes⟩ | ⟨row, hp, hl, hrow, hover, hfunny⟩
    · have hkeys : Named (naming ks) (dataKeys p.data) := by
        refine hn.mono ?_
        rw [lineKeys, hp]
        exact List.Subset.trans (List.subset_append_right _ _) (List.subset_append_left _ _)
      obtain ⟨more, hmore⟩ := row_rename hheads hkept hkeys
      have hline : renameLine (naming ks) l = (p.rename (naming ks)).dropLast ++ ['\n'] := by
        rw [renameLine, hp]
        show p.rename (naming ks) = _
        rw [rename_line, List.dropLast_concat]
      have hsame : PassedOver ((p.renamed (naming ks)).fields ++ more) ↔ PassedOver row := by
        refine passedOver_iff long (by simp [Split.fields]) ?_
        exact (cell_take hfront (i := 4) (by decide)).symm
      rw [hl, List.append_assoc, List.singleton_append, hcsv.line _ _ _ hrow, ← hl, hline, List.append_assoc, List.singleton_append,
        hcsv.line _ _ _ hmore]
      by_cases ho : PassedOver row
      · rw [List.filter_cons_of_neg (by simpa using ho), List.filter_cons_of_neg (by simpa using hsame.mpr ho)]
        exact hrest
      · rw [List.filter_cons_of_pos (by simpa using ho), List.filter_cons_of_pos (by simpa using fun h => ho (hsame.mp h))]
        exact .cons ⟨l, hall List.mem_cons_self, p, hp, hrow, hmore, ho⟩ hrest
    · rw [hl, List.append_assoc, List.singleton_append, hcsv.line _ _ _ hrow, ← hl, List.filter_cons_of_neg (by simpa using hover)]
      by_cases hd : l.head?.any Char.isDigit
      · obtain ⟨row', hrow', hover'⟩ := hfunny hd
        have hline : renameLine (naming ks) l = (funnyLine l.dropLast).dropLast ++ ['\n'] := by
          rw [renameLine, hp]
          simp only [if_pos hd]
          rw [funnyLine_concat, List.dropLast_concat]
        rw [hline, List.append_assoc, List.singleton_append, hcsv.line _ _ _ hrow', List.filter_cons_of_neg (by simpa using hover')]
        exact hrest
      · have hline : renameLine (naming ks) l = [] := by
          rw [renameLine, hp]
          simp only [if_neg hd]
        rw [hline]
        exact hrest

theorem flatten_readLines (file : Text) : (readLines file).flatten = file := by
  induction file using readLines.induct with
  | case1 => rfl
  | case2 cs ih =>
    rw [readLines, if_pos rfl, List.flatten_cons, ih]
    rfl
  | case3 c cs hc hls ih =>
    rw [hls, List.flatten_nil] at ih
    rw [readLines, if_neg hc, hls, ← ih]
    rfl
  | case4 c cs hc l ls hls ih =>
    rw [hls, List.flatten_cons] at ih
    rw [readLines, if_neg hc, hls]
    show c :: l ++ ls.flatten = _
    rw [List.cons_append, ih]

/-- In the row of a record `Parser` reads what it reads in the row of the record as it was, but for
    the addresses. -/
theorem SameRecord.otherClients {ks : Keys} {ls : List Text} (hls : ∀ l ∈ ls, Tabular l) (hks : ls.flatMap lineKeys ⊆ ks)
    (h : SameRecord ls (naming ks) row row') : OtherClients (Addresses ks) (renameIADDR (naming ks)) row row' := by
  obtain ⟨l, hl, p, hp, hrow, hrow', hover⟩ := h
  have hkeys : p.keys ⊆ ks := by
    refine List.Subset.trans (fun q hq => List.mem_flatMap.mpr ⟨l, hl, ?_⟩) hks
    rw [lineKeys, hp]
    exact hq
  rcases hls l hl with ⟨p', r, hp', _, hr, long, _, hback, hheads, hkept, hsrc, hdes⟩ | ⟨_, hp', _, _, _, _⟩
  · obtain rfl := Option.some.inj (hp.symm.trans hp')
    obtain rfl := Option.some.inj (hrow.symm.trans hr)
    have hn : Named (naming ks) (dataKeys p.data) := (named_naming ks).mono (List.Subset.trans (List.subset_append_right _ _) hkeys)
    obtain ⟨more, hmore⟩ := row_rename hheads hkept hn
    obtain rfl := Option.some.inj (hrow'.symm.trans hmore)
    have column : ∀ i < 8, cell row i = cell p.fields i := fun i hi => by
      refine cell_take (n := 8) ?_ hi
      rw [hback hover]
      rfl
    have hhosts : (.host, hostOf p.src_addr) ∈ ks ∧ (.host, hostOf p.des_addr) ∈ ks := by
      have hsub : ∀ q ∈ addrKeys p, q ∈ ks := fun q hq => hkeys (List.mem_append_left _ hq)
      unfold addrKeys at hsub
      split at hsub
      · exact ⟨hsub _ (by simp), hsub _ (by simp)⟩
      · exact ⟨hsub _ (by simp), hsub _ (by simp)⟩
    have src : cell row Pathtree.OFFSET.SRC = p.src_addr := column 1 (by decide)
    have dst : cell row Pathtree.OFFSET.DST = p.des_addr := column 2 (by decide)
    exact {
      long := long
      long' := by simp [Split.fields, Pathtree.OFFSET.PARAM_START]
      time := (column 0 (by decide)).symm
      dir := (column 4 (by decide)).symm
      xid := (column 5 (by decide)).symm
      op := (column 7 (by decide)).symm
      src := src ▸ ⟨hsrc, hhosts.1⟩
      dst := dst ▸ ⟨hdes, hhosts.2⟩
      src' := congrArg (renameIADDR (naming ks)) src.symm
      dst' := congrArg (renameIADDR (naming ks)) dst.symm }
  · rw [hp] at hp'
    cases hp'

/-- The lines of all files. -/
theorem tabular_files {files : List (Text × Restart)} (htab : ∀ f ∈ files, ∀ l ∈ readLines f.1, Tabular l) :
    ∀ l ∈ files.flatMap fun f => readLines f.1, Tabular l := by
  intro l hl
  obtain ⟨f, hf, hlf⟩ := List.mem_flatMap.mp hl
  exact htab f hf l hlf

theorem keys_files (files : List (Text × Restart)) :
    (files.flatMap fun f => readLines f.1).flatMap lineKeys = files.flatMap fun f => fileKeys f.1 := List.flatMap_assoc

theorem flatten_own (base : Text) {files : List (Text × Restart)} (hown : OwnProcesses files) :
    (anonymizeFiles base (Session.first base) files).flatten =
      (files.flatMap fun f => readLines f.1).flatMap (renameLine (namingOf files)) := by
  rw [files_own base hown, List.flatMap_assoc]
  rfl

/-- Lines and the same lines renamed make the same pairs. -/
theorem pairs_lines (hcsv : ReadsCsv csv) {ls : List Text} (htab : ∀ l ∈ ls, Tabular l) :
    List.Forall₂ (SamePair (SameRecord ls (naming (ls.flatMap lineKeys)))) (Parser.init.run (csv ls.flatten))
      (Parser.init.run (csv (ls.flatMap (renameLine (naming (ls.flatMap lineKeys)))))) := by
  have hrows := rows_lines hcsv ls (List.Subset.refl _) htab (named_naming _)
  rw [← Pathtree.run_filter, ← Pathtree.run_filter (csv (List.flatMap _ _))]
  exact Pathtree.Alike.run (apart_naming _) (fun row row' h => h.otherClients htab (List.Subset.refl _)) hrows Pathtree.alike_init

theorem files_lines (files : List (Text × Restart)) :
    files.flatMap Prod.fst = (files.flatMap fun f => readLines f.1).flatten := by
  rw [← List.flatMap_id, List.flatMap_assoc]
  refine congrArg (files.flatMap ·) (funext fun f => ?_)
  rw [List.flatMap_id, flatten_readLines]

/-- A lookup, its reply, and a line that is no record. -/
def lookupCall : Text :=
    "1.000000 0a000001.03ff 0a000002.0801 U C3 00000001 03 lookup fh 01020304 name \"thesis.tex\" con=1 len=40\n".toList

def lookupReply : Text :=
    "1.000210 0a000002.0801 0a000001.03ff U R3 00000001 03 lookup OK fh 05060708 status=0 pl=40 con=1 len=64\n".toList

def brokenHeader : Text := "XX rh_len == 0, cnt = 1\n".toList

def lookupCallRecord : Split :=
  ⟨"1.000000".toList, "0a000001.03ff".toList, "0a000002.0801".toList, "U".toList, "C3".toList, "00000001".toList, "03".toList,
    "lookup".toList, "fh 01020304 name \"thesis.tex\" con=1 len=40".toList⟩

def lookupReplyRecord : Split :=
  ⟨"1.000210".toList, "0a000002.0801".toList, "0a000001.03ff".toList, "U".toList, "R3".toList, "00000001".toList, "03".toList,
    "lookup".toList, "OK fh 05060708 status=0 pl=40 con=1 len=64".toList⟩

theorem printed_of_check {ws : List Text} (h : (ws.all fun w => w.all ordinary) = true) : ∀ w ∈ ws, Printed w := fun w hw =>
  printed_of_ordinary (List.all_eq_true.mp (List.all_eq_true.mp h w hw))

theorem tabular_lookupCall : Tabular lookupCall := by
  have hkept : lookupCallRecord.kept = ["fh", "01020304", "name", "\"thesis.tex\"", "con=1", "len=40"].map
    String.toList := by decide +kernel
  refine .record lookupCallRecord (lookupCallRecord.fields ++
    ["fh", "01020304", "name", "thesis.tex", "con=1", "len=40"].map String.toList) (by decide +kernel) (by decide +kernel)
    (by decide +kernel) (by decide +kernel) (by decide +kernel) (fun _ => by decide +kernel) (printed_of_check (by decide +kernel))
    ?_ (by unfold IsAddress; decide +kernel) (by unfold IsAddress; decide +kernel)
  rw [hkept]
  simp only [List.map_cons, List.map_nil, List.forall_mem_cons]
  exact ⟨⟨_, Or.inl rfl⟩, ⟨_, Or.inl rfl⟩, ⟨_, Or.inl rfl⟩, ⟨_, Or.inr rfl⟩, ⟨_, Or.inl rfl⟩, ⟨_, Or.inl rfl⟩, by simp⟩

theorem tabular_lookupReply : Tabular lookupReply := by
  have hkept : lookupReplyRecord.kept = ["OK", "fh", "05060708"].map String.toList := by decide +kernel
  refine .record lookupReplyRecord (lookupReplyRecord.fields ++
    ["OK", "fh", "05060708", "status=0", "pl=40", "con=1", "len=64"].map String.toList) (by decide +kernel) (by decide +kernel)
    (by decide +kernel) (by decide +kernel) (by decide +kernel) (fun _ => by decide +kernel) (printed_of_check (by decide +kernel))
    ?_ (by unfold IsAddress; decide +kernel) (by unfold IsAddress; decide +kernel)
  rw [hkept]
  simp only [List.map_cons, List.map_nil, List.forall_mem_cons]
  exact ⟨⟨_, Or.inl rfl⟩, ⟨_, Or.inl rfl⟩, ⟨_, Or.inl rfl⟩, by simp⟩

theorem tabular_brokenHeader : Tabular brokenHeader :=
  .other (["XX", "rh_len", "==", "0,", "cnt", "=", "1"].map String.toList) (by decide +kernel) (by decide +kernel) (by decide +kernel)
    (by decide +kernel) fun h => absurd h (by decide +kernel)

/-- The second file is anonymized by a new process. -/
def lookupFiles : List (Text × Restart) := [(lookupCall ++ lookupReply, .empty true), (brokenHeader ++ lookupCall, .empty false)]

theorem tabular_lookups : ∀ f ∈ lookupFiles, ∀ l ∈ readLines f.1, Tabular l := by
  have h1 : readLines (lookupCall ++ lookupReply) = [lookupCall, lookupReply] := by decide +kernel
  have h2 : readLines (brokenHeader ++ lookupCall) = [brokenHeader, lookupCall] := by decide +kernel
  simp only [lookupFiles, List.forall_mem_cons, h1, h2]
  exact ⟨⟨tabular_lookupCall, tabular_lookupReply, by simp⟩, ⟨tabular_brokenHeader, tabular_lookupCall, by simp⟩, by simp⟩

end Nfsdump.Anonymize
