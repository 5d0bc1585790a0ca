/-
  Nfsdump.Anonymize.Names — names, and what is known of a text that is put together of them.

  A name is a word of the literal list or four or more hexadecimal digits: it contains none
  of the characters that decorations and paths are made of, and is none of the prefixes.
  Proved:
  - `renameSIMPLEWORD_eq_iff`: of a simple word all but the dots at its end can be read back;
  - `renameSuffix_injective`: a listed suffix is nothing's name but its own;
  - `renameBody_readable`: a body's name starts with a name or with a dot.
-/

import Nfsdump.Anonymize.Words

namespace Nfsdump.Anonymize

open Renaming

variable {σ : Text → Text} {t w w' : Text}

/-! ## Names -/

/-- A naming of all texts as the maps make them. -/
structure Naming (σ : Text → Text) : Prop where
  injective : Function.Injective σ
  fixed : ∀ w ∈ UnmappedWords, σ w = w
  mapped : ∀ k, k ∉ UnmappedWords → ∃ n, σ k = hex4 n

def Hexish (t : Text) : Prop := 4 ≤ t.length ∧ ∀ c ∈ t, c ∈ "0123456789abcdef".toList

/-- What a name can look like. -/
def Nameish (t : Text) : Prop := t ∈ UnmappedWords ∨ Hexish t

instance (t : Text) : Decidable (Hexish t) := inferInstanceAs (Decidable (_ ∧ _))

instance (t : Text) : Decidable (Nameish t) := inferInstanceAs (Decidable (_ ∨ _))

theorem hexish_hex4 (n : Nat) : Hexish (hex4 n) := by
  refine ⟨?_, fun c hc => mem_hex4 hc⟩
  unfold hex4
  rw [List.length_append, List.length_replicate]
  omega

theorem Naming.nameish (hσ : Naming σ) (k : Text) : Nameish (σ k) := by
  by_cases hk : k ∈ UnmappedWords
  · rw [hσ.fixed k hk]
    exact Or.inl hk
  · obtain ⟨n, hn⟩ := hσ.mapped k hk
    rw [hn]
    exact Or.inr (hexish_hex4 n)

/-- The characters that decorations and paths are made of. -/
def marks : List Char := [',', '#', '~', '/']

theorem Nameish.plain (h : Nameish t) : ∀ c ∈ t, c ∉ marks := by
  rcases h with h | h
  · exact (by decide +kernel : ∀ t ∈ UnmappedWords, ∀ c ∈ t, c ∉ marks) t h
  · intro c hc
    exact (by decide : ∀ c ∈ "0123456789abcdef".toList, c ∉ marks) c (h.2 c hc)

/-- What stands in an anonymized word and is no name: nothing, the prefixes up to a dot, and
    the letters behind a comma. -/
def foreign : List Text := [[], ['s', 'a', 'v', 'e', 's', '-'], cache, ['p', 'i', 'c', 'o'], ['v'], ['t']]

theorem foreign_not_nameish : ∀ x ∈ foreign, ¬ Nameish x := by decide +kernel

theorem Nameish.ne_nil (h : Nameish t) : t ≠ [] := by
  rintro rfl
  exact foreign_not_nameish [] (by decide) h

theorem Naming.notMem_dot (hσ : Naming σ) (hk : '.' ∉ t) : '.' ∉ σ t := by
  by_cases h : t ∈ UnmappedWords
  · rw [hσ.fixed t h]
    exact hk
  · obtain ⟨n, hn⟩ := hσ.mapped t h
    rw [hn]
    intro hmem
    exact absurd (mem_hex4 hmem) (by decide)

/-! ## Simple words -/

/-- Without the dots at the end. -/
def trimDots (t : Text) : Text := t.rdropWhile (· == '.')

theorem renameSIMPLEWORD_trim (σ : Text → Text) (w : Text) : renameSIMPLEWORD σ (trimDots w) = renameSIMPLEWORD σ w := by
  unfold renameSIMPLEWORD
  rw [show split '.' (trimDots w) = split '.' w from Fields.fields_rdropWhile '.' w]

theorem ended_names (hσ : Naming σ) (ts : List Text) : Fields.Ended (ts.map σ) := by
  intro hne
  rw [List.getLast_map]
  exact (hσ.nameish _).ne_nil

theorem names_notMem_dot (hσ : Naming σ) (w : Text) : ∀ f ∈ (split '.' w).map σ, '.' ∉ f := by
  intro f hf
  obtain ⟨k, hk, rfl⟩ := List.mem_map.mp hf
  exact hσ.notMem_dot (Fields.mem_fields hk)

/-- A simple word is read back up to the dots at its end. -/
theorem renameSIMPLEWORD_eq_iff (hσ : Naming σ) : renameSIMPLEWORD σ w = renameSIMPLEWORD σ w' ↔ trimDots w = trimDots w' := by
  constructor
  · intro h
    have hnames := Fields.intercalate_injective (names_notMem_dot hσ w) (names_notMem_dot hσ w') (ended_names hσ _)
      (ended_names hσ _) h
    have hparts : Fields.fields '.' w = Fields.fields '.' w' := List.map_injective_iff.mpr hσ.injective hnames
    exact Fields.fields_eq_iff.mp hparts
  · intro h
    rw [← renameSIMPLEWORD_trim, h, renameSIMPLEWORD_trim]

theorem mem_intercalate {c sep : Char} {ts : List Text} (h : c ∈ [sep].intercalate ts) : c = sep ∨ ∃ t ∈ ts, c ∈ t := by
  induction ts with
  | nil => exact absurd h List.not_mem_nil
  | cons t ts ih =>
    cases ts with
    | nil => exact Or.inr ⟨t, List.mem_cons_self, by simpa using h⟩
    | cons u us =>
      rw [List.intercalate_cons_of_ne_nil (by simp)] at h
      simp only [List.mem_append, List.mem_singleton] at h
      rcases h with (h | h) | h
      · exact Or.inr ⟨t, List.mem_cons_self, h⟩
      · exact Or.inl h
      · rcases ih h with h | ⟨v, hv, hc⟩
        · exact Or.inl h
        · exact Or.inr ⟨v, List.mem_cons_of_mem _ hv, hc⟩

theorem renameSIMPLEWORD_plain (hσ : Naming σ) (w : Text) : ∀ c ∈ renameSIMPLEWORD σ w, c ∉ marks := by
  intro c hc
  rcases mem_intercalate hc with rfl | ⟨f, hf, hcf⟩
  · decide
  · obtain ⟨k, -, rfl⟩ := List.mem_map.mp hf
    exact (hσ.nameish k).plain c hcf

/-- A simple word without dots is one name. -/
theorem renameSIMPLEWORD_of_notMem (σ : Text → Text) (h : '.' ∉ w) : renameSIMPLEWORD σ w = if w = [] then [] else σ w := by
  unfold renameSIMPLEWORD join
  rw [show split '.' w = if w = [] then [] else [w] from Fields.fields_of_notMem h]
  split
  · rfl
  · exact List.intercalate_singleton

/-- A simple word is all dots, or begins with a name. -/
theorem renameSIMPLEWORD_head (hσ : Naming σ) (w : Text) : (renameSIMPLEWORD σ w = [] ∧ trimDots w = []) ∨
    ∃ name rest, Nameish name ∧ '.' ∉ name ∧ renameSIMPLEWORD σ w = name ++ rest ∧ (rest = [] ∨ ∃ r, rest = '.' :: r) := by
  cases hf : split '.' w with
  | nil =>
    refine Or.inl ⟨by unfold renameSIMPLEWORD; rw [hf]; rfl, ?_⟩
    have hw : Fields.fields '.' w = Fields.fields '.' [] := by
      rw [Fields.fields_nil]
      exact hf
    exact Fields.fields_eq_iff.mp hw
  | cons k ks =>
    have hk : k ∈ split '.' w := by rw [hf]; exact List.mem_cons_self
    have hdot : '.' ∉ σ k := hσ.notMem_dot (Fields.mem_fields hk)
    unfold renameSIMPLEWORD join
    rw [hf, List.map_cons]
    by_cases hks : ks.map σ = []
    · rw [hks]
      exact Or.inr ⟨σ k, [], hσ.nameish k, hdot, by simp, Or.inl rfl⟩
    · rw [List.intercalate_cons_of_ne_nil hks]
      exact Or.inr ⟨σ k, '.' :: ['.'].intercalate (ks.map σ), hσ.nameish k, hdot, by simp, Or.inr ⟨_, rfl⟩⟩

/-! ## Bodies -/

theorem rootSuffix_line (h : '\n' ∉ t) : (rootSuffix t = none ∧ '.' ∉ t) ∨
    ∃ root suffix, rootSuffix t = some (root, suffix) ∧ t = root ++ '.' :: suffix ∧ '.' ∉ suffix := by
  have hparts := List.rdropWhile_append_rtakeWhile (p := fun c => decide (c ≠ '.')) (l := t)
  have hsuffix : '.' ∉ t.rtakeWhile (· ≠ '.') := fun hmem => by
    have := List.mem_rtakeWhile_imp hmem
    simp at this
  unfold rootSuffix
  by_cases hfront : t.rdropWhile (· ≠ '.') = []
  · refine Or.inl ⟨if_neg fun hf => hf.1 hfront, fun hmem => ?_⟩
    have hall := List.rdropWhile_eq_nil_iff.mp hfront '.' hmem
    simp at hall
  · have hline : '\n' ∉ (t.rdropWhile (· ≠ '.')).dropLast := fun hmem =>
      h ((List.rdropWhile_prefix _ _).subset (List.dropLast_subset _ hmem))
    have hdot : (t.rdropWhile (· ≠ '.')).getLast hfront = '.' := by
      have hlast := List.rdropWhile_last_not _ _ hfront
      simpa using hlast
    refine Or.inr ⟨_, _, if_pos ⟨hfront, hline⟩, ?_, hsuffix⟩
    have hback := List.dropLast_append_getLast hfront
    rw [hdot] at hback
    calc t = t.rdropWhile (· ≠ '.') ++ t.rtakeWhile (· ≠ '.') := hparts.symm
      _ = ((t.rdropWhile (· ≠ '.')).dropLast ++ ['.']) ++ t.rtakeWhile (· ≠ '.') := by rw [hback]
      _ = _ := by rw [List.append_assoc]; rfl

theorem renameSuffix_plain (hσ : Naming σ) (hw : '.' ∉ w) : '.' ∉ renameSuffix σ w ∧ ∀ c ∈ renameSuffix σ w, c ∉ marks := by
  unfold renameSuffix
  split
  · rename_i hmem
    exact ⟨hw, (by decide +kernel : ∀ t ∈ UnmappedSuffixes, ∀ c ∈ t, c ∉ marks) w hmem⟩
  · refine ⟨?_, renameSIMPLEWORD_plain hσ w⟩
    rw [renameSIMPLEWORD_of_notMem σ hw]
    split
    · exact List.not_mem_nil
    · exact hσ.notMem_dot hw

/-- What the last part becomes: nothing, a suffix of the list, or a name. -/
theorem renameSuffix_cases (hσ : Naming σ) (hw : '.' ∉ w) :
    renameSuffix σ w = [] ∨ renameSuffix σ w ∈ UnmappedSuffixes ∨ Nameish (renameSuffix σ w) := by
  unfold renameSuffix
  split
  · rename_i hmem
    exact Or.inr (Or.inl hmem)
  · rw [renameSIMPLEWORD_of_notMem σ hw]
    split
    · exact Or.inl rfl
    · exact Or.inr (Or.inr (hσ.nameish w))

/-- No suffix of the list looks like a name that is given to another word. -/
theorem suffix_not_hexish : ∀ t ∈ UnmappedSuffixes, ¬ Hexish t := by decide +kernel

theorem renameSuffix_injective (hσ : Naming σ) (hw : '.' ∉ w) (hw' : '.' ∉ w') (h : renameSuffix σ w = renameSuffix σ w') : w = w' := by
  have simple : ∀ {u : Text}, '.' ∉ u → u ∉ UnmappedSuffixes → renameSuffix σ u = if u = [] then [] else σ u := by
    intro u hu hmem
    unfold renameSuffix
    rw [if_neg hmem, renameSIMPLEWORD_of_notMem σ hu]
  -- a suffix of the list is nothing's name but its own
  have listed : ∀ {u v : Text}, u ∈ UnmappedSuffixes → '.' ∉ v → v ∉ UnmappedSuffixes → renameSuffix σ v ≠ u := by
    intro u v hu hv hmem he
    rw [simple hv hmem] at he
    split at he
    · exact absurd (he ▸ hu : [] ∈ UnmappedSuffixes) (by decide +kernel)
    · by_cases hfix : v ∈ UnmappedWords
      · rw [hσ.fixed v hfix] at he
        exact hmem (he ▸ hu)
      · obtain ⟨n, hn⟩ := hσ.mapped v hfix
        exact suffix_not_hexish u hu (he ▸ hn ▸ hexish_hex4 n)
  by_cases hmem : w ∈ UnmappedSuffixes
  · have he : renameSuffix σ w = w := if_pos hmem
    by_cases hmem' : w' ∈ UnmappedSuffixes
    · rw [he, show renameSuffix σ w' = w' from if_pos hmem'] at h
      exact h
    · exact absurd (h.symm.trans he) (listed hmem hw' hmem')
  · by_cases hmem' : w' ∈ UnmappedSuffixes
    · exact absurd (h.trans (if_pos hmem')) (listed hmem' hw hmem)
    · rw [simple hw hmem, simple hw' hmem'] at h
      split at h
      · rename_i hnil
        split at h
        · rename_i hnil'
          rw [hnil, hnil']
        · exact absurd h.symm (hσ.nameish w').ne_nil
      · split at h
        · exact absurd h (hσ.nameish w).ne_nil
        · exact hσ.injective h

/-- What is known of the name of a body, read from its start. -/
structure Readable (B : Text) : Prop where
  plain : ∀ c ∈ B, c ∉ marks
  head : ∃ name rest, B = name ++ rest ∧ (name = [] ∨ Nameish name) ∧ '.' ∉ name ∧ (rest = [] ∨ ∃ r, rest = '.' :: r)
  dotted : ∀ r, B = '.' :: r → '.' ∉ r

theorem renameBody_readable (hσ : Naming σ) (h : '\n' ∉ t) : Readable (renameBody σ t) ∧
    (∀ r, renameBody σ t = '.' :: r → ∃ r, t = '.' :: r) ∧ (renameBody σ t = [] → t = []) := by
  rcases rootSuffix_line h with ⟨hnone, hdot⟩ | ⟨root, suffix, hsome, ht, hdot⟩
  · have hB : renameBody σ t = if t = [] then [] else σ t := by
      unfold renameBody
      rw [hnone]
      exact renameSIMPLEWORD_of_notMem σ hdot
    rw [hB]
    split
    · rename_i hnil
      exact ⟨⟨fun c hc => absurd hc List.not_mem_nil, ⟨[], [], rfl, Or.inl rfl, List.not_mem_nil, Or.inl rfl⟩,
        fun r hr => nomatch hr⟩, fun r hr => (nomatch hr), fun _ => hnil⟩
    · have hno : ∀ r, σ t ≠ '.' :: r := fun r hr => hσ.notMem_dot hdot (hr ▸ List.mem_cons_self)
      exact ⟨⟨(hσ.nameish t).plain, ⟨σ t, [], (List.append_nil _).symm, Or.inr (hσ.nameish t), hσ.notMem_dot hdot, Or.inl rfl⟩,
        fun r hr => absurd hr (hno r)⟩, fun r hr => absurd hr (hno r), fun hnil => absurd hnil (hσ.nameish t).ne_nil⟩
  · have hB : renameBody σ t = renameSIMPLEWORD σ root ++ '.' :: renameSuffix σ suffix := by
      unfold renameBody
      rw [hsome]
    obtain ⟨hsdot, hsplain⟩ := renameSuffix_plain hσ hdot
    have hplain : ∀ c ∈ renameSIMPLEWORD σ root ++ '.' :: renameSuffix σ suffix, c ∉ marks := by
      intro c hc
      rcases List.mem_append.mp hc with hc | hc
      · exact renameSIMPLEWORD_plain hσ root c hc
      · rcases List.mem_cons.mp hc with rfl | hc
        · decide
        · exact hsplain c hc
    rw [hB]
    rcases renameSIMPLEWORD_head hσ root with ⟨hnil, htrim⟩ | ⟨name, rest, hname, hndot, heq, hrest⟩
    · -- the root is dots only
      rw [hnil] at hplain ⊢
      refine ⟨⟨hplain, ⟨[], _, rfl, Or.inl rfl, List.not_mem_nil, Or.inr ⟨_, rfl⟩⟩, fun r hr => ?_⟩, fun r _ => ?_, fun hr => nomatch hr⟩
      · rw [List.nil_append, List.cons_eq_cons] at hr
        rw [← hr.2]
        exact hsdot
      · cases root with
        | nil => exact ⟨suffix, ht⟩
        | cons c root =>
          have hc : c = '.' := by
            have hall := List.rdropWhile_eq_nil_iff.mp htrim c List.mem_cons_self
            simpa using hall
          exact ⟨root ++ '.' :: suffix, by rw [ht, hc]; rfl⟩
    · have hno : ∀ r, renameSIMPLEWORD σ root ++ '.' :: renameSuffix σ suffix ≠ '.' :: r := by
        intro r hr
        rw [heq] at hr
        cases name with
        | nil => exact hname.ne_nil rfl
        | cons c name =>
          rw [List.cons_append, List.cons_append, List.cons_eq_cons] at hr
          exact hndot (hr.1 ▸ List.mem_cons_self)
      refine ⟨⟨hplain, ⟨name, rest ++ '.' :: renameSuffix σ suffix, by rw [heq, List.append_assoc], Or.inr hname, hndot, Or.inr ?_⟩,
        fun r hr => absurd hr (hno r)⟩, fun r hr => absurd hr (hno r), fun hnil => absurd hnil (by simp)⟩
      rcases hrest with rfl | ⟨r, rfl⟩
      · exact ⟨_, rfl⟩
      · exact ⟨_, rfl⟩

end Nfsdump.Anonymize
