/-
  Renaming — names given out in order.

  Some keys have a fixed name. Every other key gets the next name of a supply the first time
  it is asked for, and keeps it. The state is the list of the keys named so far, oldest first.

  Proved:
  - `rename_ask_of_some`: a name once given stays;
  - `asked_length`: as many names are given out as different keys without a fixed name were asked for;
  - `rename_injective`, `injects_iff`: with a supply that does not repeat, the names are
    distinct iff none given out is a fixed one;
  - `exists_total`: with a supply that also avoids the fixed names, the names of a run are
    those of one injective naming of all keys.
-/

import Mathlib.Tactic

namespace Renaming

variable {κ ν : Type*} [DecidableEq κ] {fixed : κ → Option ν} {name : ℕ → ν} {ks qs : List κ} {k k' : κ} {v : ν}

def ask (fixed : κ → Option ν) (ks : List κ) (k : κ) : List κ :=
  if (fixed k).isSome ∨ k ∈ ks then ks else ks ++ [k]

def asked (fixed : κ → Option ν) (qs : List κ) : List κ := qs.foldl (ask fixed) []

def rename (fixed : κ → Option ν) (name : ℕ → ν) (ks : List κ) (k : κ) : Option ν :=
  (fixed k).or (if k ∈ ks then some (name (ks.idxOf k)) else none)

/-- Each key is listed once, and has no fixed name. -/
structure Fresh (fixed : κ → Option ν) (ks : List κ) : Prop where
  nodup : ks.Nodup
  unfixed : ∀ k ∈ ks, fixed k = none

/-- The same key has the same name, different keys have different names. -/
def Injects (log : List (κ × ν)) : Prop := ∀ p ∈ log, ∀ q ∈ log, p.1 = q.1 ↔ p.2 = q.2

/-! ## One lookup -/

theorem rename_of_fixed (h : fixed k = some v) : rename fixed name ks k = some v := by
  rw [rename, h, Option.some_or]

theorem rename_of_mem (h : fixed k = none) (hk : k ∈ ks) : rename fixed name ks k = some (name (ks.idxOf k)) := by
  rw [rename, h, Option.none_or, if_pos hk]

theorem rename_eq_none : rename fixed name ks k = none ↔ fixed k = none ∧ k ∉ ks := by
  rw [rename, Option.or_eq_none_iff]
  simp

theorem ask_of_some (h : rename fixed name ks k = some v) : ask fixed ks k = ks := by
  rw [ask, if_pos]
  by_contra hno
  rw [not_or, Bool.not_eq_true, Option.isSome_eq_false_iff, Option.isNone_iff_eq_none] at hno
  rw [rename_eq_none.mpr hno] at h
  cases h

theorem ask_of_none (h : rename fixed name ks k = none) : ask fixed ks k = ks ++ [k] := by
  obtain ⟨hf, hk⟩ := rename_eq_none.mp h
  rw [ask, if_neg]
  simp [hf, hk]

theorem rename_append_of_some (h : rename fixed name ks k = some v) : rename fixed name (ks ++ [k']) k = some v := by
  rcases hf : fixed k with _ | u
  · by_cases hk : k ∈ ks
    · rw [rename_of_mem hf hk] at h
      rw [rename_of_mem hf (List.mem_append_left _ hk), List.idxOf_append_of_mem hk, h]
    · rw [rename_eq_none.mpr ⟨hf, hk⟩] at h
      cases h
  · rw [rename_of_fixed hf] at h ⊢
    exact h

theorem rename_ask_of_some (h : rename fixed name ks k = some v) : rename fixed name (ask fixed ks k') k = some v := by
  rcases hk' : rename fixed name ks k' with _ | u
  · rw [ask_of_none hk']
    exact rename_append_of_some h
  · rw [ask_of_some hk']
    exact h

/-- A key without a name gets the next one. -/
theorem rename_append_self (h : rename fixed name ks k = none) : rename fixed name (ks ++ [k]) k = some (name ks.length) := by
  obtain ⟨hf, hk⟩ := rename_eq_none.mp h
  rw [rename_of_mem hf (List.mem_append_right _ (List.mem_singleton_self k)), List.idxOf_append_of_notMem hk,
    List.idxOf_cons_self, Nat.add_zero]

theorem rename_append_other (hne : k ≠ k') : rename fixed name (ks ++ [k']) k = rename fixed name ks k := by
  rcases h : rename fixed name ks k with _ | v
  · obtain ⟨hf, hk⟩ := rename_eq_none.mp h
    exact rename_eq_none.mpr ⟨hf, by simp [hk, hne]⟩
  · exact rename_append_of_some h

theorem Fresh.ask (h : Fresh fixed ks) (k : κ) : Fresh fixed (ask fixed ks k) := by
  unfold Renaming.ask
  split
  · exact h
  · next hno =>
    rw [not_or, Bool.not_eq_true, Option.isSome_eq_false_iff, Option.isNone_iff_eq_none] at hno
    refine ⟨?_, fun j hj => ?_⟩
    · rw [List.nodup_append]
      exact ⟨h.nodup, List.nodup_singleton k, fun a ha b hb hab => hno.2 (List.mem_singleton.mp hb ▸ hab ▸ ha)⟩
    · rcases List.mem_append.mp hj with hj | hj
      · exact h.unfixed j hj
      · exact List.mem_singleton.mp hj ▸ hno.1

/-! ## A run of lookups -/

theorem asked_append (qs rs : List κ) : asked fixed (qs ++ rs) = rs.foldl (ask fixed) (asked fixed qs) :=
  List.foldl_append

theorem asked_concat (qs : List κ) (k : κ) : asked fixed (qs ++ [k]) = ask fixed (asked fixed qs) k := asked_append qs [k]

theorem asked_fresh (qs : List κ) : Fresh fixed (asked fixed qs) := by
  induction qs using List.reverseRecOn with
  | nil => exact ⟨List.nodup_nil, fun k hk => absurd hk List.not_mem_nil⟩
  | append_singleton qs k ih => rw [asked_concat]; exact ih.ask k

theorem mem_asked : k ∈ asked fixed qs ↔ k ∈ qs ∧ fixed k = none := by
  induction qs using List.reverseRecOn with
  | nil => simp [asked]
  | append_singleton qs j ih =>
    rw [asked_concat, ask]
    split
    · next hj =>
      rw [ih, List.mem_append, List.mem_singleton]
      constructor
      · intro ⟨hk, hf⟩
        exact ⟨Or.inl hk, hf⟩
      · intro ⟨hk, hf⟩
        rcases hk with hk | rfl
        · exact ⟨hk, hf⟩
        · rw [hf] at hj
          exact ih.mp (hj.resolve_left Bool.false_ne_true)
    · next hj =>
      rw [not_or, Bool.not_eq_true, Option.isSome_eq_false_iff, Option.isNone_iff_eq_none] at hj
      rw [List.mem_append, List.mem_append, List.mem_singleton, ih]
      constructor
      · rintro (⟨hk, hf⟩ | rfl)
        · exact ⟨Or.inl hk, hf⟩
        · exact ⟨Or.inr rfl, hj.1⟩
      · intro ⟨hk, hf⟩
        rcases hk with hk | hk
        · exact Or.inl ⟨hk, hf⟩
        · exact Or.inr hk

/-- As many names are given out as different keys without a fixed name were asked for. -/
theorem asked_length (qs : List κ) : (asked fixed qs).length = (qs.filter fun k => (fixed k).isNone).toFinset.card := by
  rw [← List.toFinset_card_of_nodup (asked_fresh qs).nodup]
  congr 1
  ext k
  rw [List.mem_toFinset, List.mem_toFinset, mem_asked, List.mem_filter, Option.isNone_iff_eq_none]

theorem Fresh.asked_eq (h : Fresh fixed qs) : asked fixed qs = qs := by
  induction qs using List.reverseRecOn with
  | nil => rfl
  | append_singleton qs k ih =>
    have hnodup := List.nodup_append.mp h.nodup
    rw [asked_concat, ih ⟨hnodup.1, fun j hj => h.unfixed j (List.mem_append_left _ hj)⟩]
    have hk : fixed k = none := h.unfixed k (List.mem_append_right _ (List.mem_singleton_self k))
    have hnew : k ∉ qs := fun hk => hnodup.2.2 k hk k (List.mem_singleton_self k) rfl
    rw [Renaming.ask, if_neg (by simp [hk, hnew])]

theorem rename_foldl_of_some (rs : List κ) (h : rename fixed name ks k = some v) :
    rename fixed name (rs.foldl (ask fixed) ks) k = some v := by
  induction rs generalizing ks with
  | nil => exact h
  | cons r rs ih => exact ih (rename_ask_of_some h)

/-! ## Distinct names -/

theorem rename_injective (hname : Function.Injective name)
    (hfixed : ∀ k k' v, fixed k = some v → fixed k' = some v → k = k')
    (havoid : ∀ i < ks.length, ∀ f v, fixed f = some v → name i ≠ v)
    (h : rename fixed name ks k = some v) (h' : rename fixed name ks k' = some v) : k = k' := by
  have named : ∀ j, rename fixed name ks j = some v → fixed j = some v ∨ j ∈ ks ∧ name (ks.idxOf j) = v := by
    intro j hj
    rcases hf : fixed j with _ | u
    · by_cases hk : j ∈ ks
      · rw [rename_of_mem hf hk, Option.some_inj] at hj
        exact Or.inr ⟨hk, hj⟩
      · rw [rename_eq_none.mpr ⟨hf, hk⟩] at hj
        cases hj
    · rw [rename_of_fixed hf] at hj
      exact Or.inl hj
  rcases named k h with hk | ⟨hk, hv⟩ <;> rcases named k' h' with hk' | ⟨hk', hv'⟩
  · exact hfixed k k' v hk hk'
  · exact absurd hv' (havoid _ (List.idxOf_lt_length_iff.mpr hk') k v hk)
  · exact absurd hv (havoid _ (List.idxOf_lt_length_iff.mpr hk) k' v hk')
  · exact (List.idxOf_inj hk).mp (hname (hv.trans hv'.symm))

/-- A log of lookups, with some of the fixed names. -/
theorem injects_of_avoid {log : List (κ × ν)} (hname : Function.Injective name)
    (hfixed : ∀ k k' v, fixed k = some v → fixed k' = some v → k = k')
    (havoid : ∀ i < ks.length, ∀ f v, fixed f = some v → name i ≠ v)
    (hlog : ∀ p ∈ log, rename fixed name ks p.1 = some p.2) : Injects log := by
  intro p hp q hq
  constructor
  · intro h
    have hnames := (hlog p hp).symm.trans (h ▸ hlog q hq)
    exact Option.some_inj.mp hnames
  · intro h
    exact rename_injective hname hfixed havoid (hlog p hp) (h ▸ hlog q hq)

/-- A fixed name that is given out again. -/
theorem not_injects {log : List (κ × ν)} {i : ℕ} {f : κ}
    (hlog : ∀ p ∈ log, rename fixed name (asked fixed qs) p.1 = some p.2) (hkeys : ∀ k ∈ qs, ∃ v, (k, v) ∈ log)
    (hi : i < (asked fixed qs).length) (hf : fixed f = some (name i)) (hmem : (f, name i) ∈ log) : ¬ Injects log := by
  intro hinj
  have hkey : (asked fixed qs)[i] ∈ asked fixed qs := List.getElem_mem hi
  obtain ⟨hq, hunfixed⟩ := mem_asked.mp hkey
  obtain ⟨v, hv⟩ := hkeys _ hq
  have hnamed : rename fixed name (asked fixed qs) (asked fixed qs)[i] = some (name i) := by
    rw [rename_of_mem hunfixed hkey, (asked_fresh qs).nodup.idxOf_getElem]
  have hsame : v = name i := Option.some_inj.mp ((hlog _ hv).symm.trans hnamed)
  have hkf : (asked fixed qs)[i] = f := (hinj _ hv _ hmem).mpr hsame
  rw [hkf, hf] at hunfixed
  cases hunfixed

theorem injects_iff (qs : List κ) {log : List (κ × ν)} (hname : Function.Injective name)
    (hfixed : ∀ k k' v, fixed k = some v → fixed k' = some v → k = k')
    (hlog : ∀ p ∈ log, rename fixed name (asked fixed qs) p.1 = some p.2)
    (hkeys : ∀ k ∈ qs, ∃ v, (k, v) ∈ log) (hpins : ∀ f v, fixed f = some v → (f, v) ∈ log) :
    Injects log ↔ ∀ i < (asked fixed qs).length, ∀ f v, fixed f = some v → name i ≠ v := by
  constructor
  · rintro hinj i hi f v hf rfl
    exact not_injects hlog hkeys hi hf (hpins f _ hf) hinj
  · intro havoid
    exact injects_of_avoid hname hfixed havoid hlog

/-- The names of a run are those of one injective naming of all keys. -/
theorem exists_total [Countable κ] (ks : List κ) (hname : Function.Injective name)
    (hfixed : ∀ k k' v, fixed k = some v → fixed k' = some v → k = k') (havoid : ∀ i f v, fixed f = some v → name i ≠ v) :
    ∃ σ : κ → ν, Function.Injective σ ∧ (∀ k v, rename fixed name ks k = some v → σ k = v) ∧
      (∀ k v, fixed k = some v → σ k = v) ∧ ∀ k, fixed k = none → ∃ i, σ k = name i := by
  obtain ⟨code, hcode⟩ := Countable.exists_injective_nat κ
  -- the other keys come behind those named so far
  let place : κ → ℕ := fun k => if k ∈ ks then ks.idxOf k else ks.length + code k
  have hplace : Function.Injective place := by
    intro k k' h
    simp only [place] at h
    split at h
    · rename_i hk
      have hlt := List.idxOf_lt_length_iff.mpr hk
      split at h
      · exact (List.idxOf_inj hk).mp h
      · omega
    · split at h
      · rename_i hk'
        have hlt := List.idxOf_lt_length_iff.mpr hk'
        omega
      · exact hcode (Nat.add_left_cancel h)
  let σ : κ → ν := fun k => (fixed k).getD (name (place k))
  have hfix : ∀ k v, fixed k = some v → σ k = v := by
    intro k v hk
    simp only [σ]
    rw [hk, Option.getD_some]
  have hnew : ∀ k, fixed k = none → σ k = name (place k) := by
    intro k hk
    simp only [σ]
    rw [hk, Option.getD_none]
  refine ⟨σ, fun k k' h => ?_, fun k v hk => ?_, hfix, fun k hk => ⟨place k, hnew k hk⟩⟩
  · rcases hf : fixed k with _ | v
    · rcases hf' : fixed k' with _ | v'
      · rw [hnew k hf, hnew k' hf'] at h
        exact hplace (hname h)
      · rw [hnew k hf, hfix k' v' hf'] at h
        exact absurd h (havoid _ k' v' hf')
    · rcases hf' : fixed k' with _ | v'
      · rw [hfix k v hf, hnew k' hf'] at h
        exact absurd h.symm (havoid _ k v hf)
      · rw [hfix k v hf, hfix k' v' hf'] at h
        exact hfixed k k' v hf (h ▸ hf')
  · rcases hf : fixed k with _ | u
    · by_cases hmem : k ∈ ks
      · rw [rename_of_mem hf hmem, Option.some_inj] at hk
        rw [hnew k hf, ← hk]
        simp only [place, if_pos hmem]
      · rw [rename_eq_none.mpr ⟨hf, hmem⟩] at hk
        cases hk
    · rw [rename_of_fixed hf, Option.some_inj] at hk
      rw [hfix k u hf, hk]

end Renaming
