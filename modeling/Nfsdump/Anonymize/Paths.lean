/-
  Nfsdump.Anonymize.Paths — which paths keep apart under new names (scripts/anonymize.pl).

  Over any run of calls and restarts the results of `anonymizePATH` are those of one
  injective naming of all subwords, the earlier ones too (`calls_serve`, `exists_naming`).

  Proved (`paths_distinct_iff`): over any run, different paths become different iff no two of
  those anonymized read the same (`readings`). `a..c` and `a.c` do: `paths_collide`.
-/

import Nfsdump.Anonymize.Readings

namespace Nfsdump.Anonymize

open Renaming

/-! ## Runs -/

inductive Call where
  | path (path : Text)
  | other (e : Event)

/-- A path is a field of a line; of the others none asks for the reserved key. -/
def Call.Ordinary : Call → Prop
  | .path p => Field p
  | .other e => ∀ kind, MAXKEY ∉ e.asks kind

/-- One call, with the path and what it became. -/
def State.call (base : Text) (s : State) : Call → State × List (Text × Text)
  | .path p => ((anonymizePATH s p).1, [(p, (anonymizePATH s p).2)])
  | .other e => ((s.step base e).1, [])

def State.calls (base : Text) (s : State) : List Call → State × List (Text × Text)
  | [] => (s, [])
  | c :: cs =>
    let r := s.call base c
    let rest := r.1.calls base cs
    (rest.1, r.2 ++ rest.2)

/-- The paths that a run anonymizes. -/
def paths (cs : List Call) : List Text :=
  cs.flatMap fun
    | .path p => [p]
    | .other _ => []

/-! ## The table of suffixes stays -/

variable {s : State} {qs : Kind → List Text} {sure : Prop}

theorem storeAll_suffixes {h : Hash} (hh : ∀ k, k ∉ UnmappedSuffixes → h k = none) :
    h.storeAll UnmappedSuffixes = fun k => if k ∈ UnmappedSuffixes then some k else none := by
  funext k
  rw [Hash.storeAll_apply]
  split
  · rfl
  · rename_i hk
    exact hh k hk

theorem serves_first (base : Text) : Serves True (State.first base) fun _ => [] := ⟨holds_first base, storeAll_suffixes fun _ _ => rfl⟩

theorem Serves.restart (base : Text) (h : Serves sure s qs) (r : Restart) : Serves (sure ∧ r.exit = true) (s.restart base r) qs := by
  refine ⟨h.holds.restart base r, storeAll_suffixes fun k hk => ?_⟩
  show (r.process (closeMapFiles s)).unmappedSuffix k = none
  unfold Restart.process
  split
  · rfl
  · show s.unmappedSuffix k = none
    rw [h.suffixes]
    exact if_neg hk

theorem Serves.step (base : Text) (h : Serves sure s qs) {e : Event} (he : ∀ kind, MAXKEY ∉ e.asks kind) :
    Serves (sure ∧ e.Once) (s.step base e).1 fun kind => qs kind ++ e.asks kind := by
  refine ⟨(step_holds base h.holds he).1, ?_⟩
  cases e with
  | word w => exact (anonymizeParts_suffixes _ s).trans h.suffixes
  | host t => exact h.suffixes
  | uid t => exact h.suffixes
  | gid t => exact h.suffixes
  | fileid t => exact h.suffixes
  | restart r => exact (h.restart base r).suffixes

/-! ## The results are those of one naming -/

theorem call_serves (base : Text) (h : Serves sure s qs) {c : Call} (hc : c.Ordinary) :
    ∃ sure' qs', Serves sure' (s.call base c).1 qs' ∧ (∃ more, qs' .word = qs .word ++ more) ∧
      ∀ σ, Names σ (qs' .word) → ∀ r ∈ (s.call base c).2, r.2 = renamePATH σ r.1 := by
  cases c with
  | path p =>
    obtain ⟨qs', h', hmore, hname⟩ := anonymizePATH_spec h hc
    refine ⟨sure, qs', h', hmore, fun σ hσ r hr => ?_⟩
    rw [List.mem_singleton.mp hr]
    exact hname σ hσ
  | other e => exact ⟨_, _, h.step base hc, ⟨e.asks .word, rfl⟩, fun σ _ r hr => absurd hr List.not_mem_nil⟩

theorem calls_serve (base : Text) (cs : List Call) (h : Serves sure s qs) (hcs : ∀ c ∈ cs, c.Ordinary) :
    ∃ sure' qs', Serves sure' (s.calls base cs).1 qs' ∧ (∃ more, qs' .word = qs .word ++ more) ∧
      ∀ σ, Names σ (qs' .word) → ∀ r ∈ (s.calls base cs).2, r.2 = renamePATH σ r.1 := by
  induction cs generalizing s qs sure with
  | nil => exact ⟨sure, qs, h, ⟨[], (List.append_nil _).symm⟩, fun σ _ r hr => absurd hr List.not_mem_nil⟩
  | cons c cs ih =>
    rw [List.forall_mem_cons] at hcs
    obtain ⟨sure₁, qs₁, h₁, ⟨more₁, hmore₁⟩, hname₁⟩ := call_serves base h hcs.1
    obtain ⟨sure₂, qs₂, h₂, ⟨more₂, hmore₂⟩, hname₂⟩ := ih h₁ hcs.2
    refine ⟨sure₂, qs₂, h₂, ⟨more₁ ++ more₂, by rw [hmore₂, hmore₁, List.append_assoc]⟩, fun σ hσ r hr => ?_⟩
    rcases List.mem_append.mp hr with hr | hr
    · rw [hmore₂] at hσ
      exact hname₁ σ hσ.earlier r hr
    · exact hname₂ σ hσ r hr

theorem calls_paths (base : Text) (cs : List Call) (s : State) : (s.calls base cs).2.map Prod.fst = paths cs := by
  induction cs generalizing s with
  | nil => rfl
  | cons c cs ih =>
    show ((s.call base c).2 ++ ((s.call base c).1.calls base cs).2).map Prod.fst = _
    rw [List.map_append, ih]
    cases c with
    | path p => rfl
    | other e => rfl

instance countable_char : Countable Char := Function.Injective.countable (f := Char.toNat) fun _ _ h => Char.toNat_inj.mp h

/-- The names given so far are those of a naming of all texts. -/
theorem exists_naming (qs : List Text) : ∃ σ, Naming σ ∧ Names σ qs := by
  have havoid : ∀ i f v, Kind.word.fixed f = some v → Kind.word.supply i ≠ v := by
    intro i f v hf heq
    obtain ⟨hmem, rfl⟩ := Kind.fixed_eq_some.mp hf
    exact hex4_mapped _ (heq ▸ hmem)
  obtain ⟨σ, hinj, hnames, hfixed, hnew⟩ :=
    exists_total (asked Kind.word.fixed qs) supply_word_injective (Kind.fixed_injective .word) havoid
  refine ⟨σ, ⟨hinj, fun w hw => hfixed w w (Kind.fixed_eq_some.mpr ⟨hw, rfl⟩), fun k hk => ?_⟩, hnames⟩
  obtain ⟨i, hi⟩ := hnew k (if_neg hk)
  exact ⟨0 + i, hi⟩

/-! ## Which paths keep apart -/

/-- The paths anonymized over a whole run, with restarts. -/
theorem paths_distinct_iff (base : Text) (cs : List Call) (hcs : ∀ c ∈ cs, c.Ordinary) :
    (∀ a ∈ ((State.first base).calls base cs).2, ∀ b ∈ ((State.first base).calls base cs).2, a.1 ≠ b.1 → a.2 ≠ b.2) ↔
      ∀ p ∈ paths cs, ∀ q ∈ paths cs, readings p = readings q → p = q := by
  obtain ⟨-, qs, -, -, hname⟩ := calls_serve base cs (serves_first base) hcs
  obtain ⟨σ, hσ, hqs⟩ := exists_naming (qs .word)
  have hlog := hname σ hqs
  have hpaths := calls_paths base cs (State.first base)
  generalize ((State.first base).calls base cs).2 = log at hlog hpaths ⊢
  have hline : ∀ p ∈ paths cs, '\n' ∉ p := by
    intro p hp
    obtain ⟨c, hc, hpc⟩ := List.mem_flatMap.mp hp
    cases c with
    | path q =>
      rw [List.mem_singleton.mp hpc]
      exact (hcs _ hc).2
    | other e => exact absurd hpc List.not_mem_nil
  -- two results are the same iff the paths read the same
  have same : ∀ a ∈ log, ∀ b ∈ log, a.2 = b.2 ↔ readings a.1 = readings b.1 := by
    intro a ha b hb
    rw [hlog a ha, hlog b hb]
    exact renamePATH_eq_iff hσ (hline _ (hpaths ▸ List.mem_map_of_mem ha)) (hline _ (hpaths ▸ List.mem_map_of_mem hb))
  rw [← hpaths]
  constructor
  · intro h p hp q hq hread
    obtain ⟨a, ha, rfl⟩ := List.mem_map.mp hp
    obtain ⟨b, hb, rfl⟩ := List.mem_map.mp hq
    by_contra hne
    exact h a ha b hb hne ((same a ha b hb).mpr hread)
  · intro h a ha b hb hne heq
    exact hne (h _ (List.mem_map_of_mem ha) _ (List.mem_map_of_mem hb) ((same a ha b hb).mp heq))

theorem paths_distinct_iff_restart :
    (∀ a ∈ ((State.first []).calls [] [.path "a/b.c".toList, .other (.restart (.empty true)), .path "a/b.c~".toList]).2,
      ∀ b ∈ ((State.first []).calls [] [.path "a/b.c".toList, .other (.restart (.empty true)), .path "a/b.c~".toList]).2,
        a.1 ≠ b.1 → a.2 ≠ b.2) ↔
      ∀ p ∈ paths [.path "a/b.c".toList, .other (.restart (.empty true)), .path "a/b.c~".toList],
        ∀ q ∈ paths [.path "a/b.c".toList, .other (.restart (.empty true)), .path "a/b.c~".toList], readings p = readings q → p = q := by
  refine paths_distinct_iff [] _ fun c hc => ?_
  simp only [List.mem_cons, List.not_mem_nil, or_false] at hc
  rcases hc with rfl | rfl | rfl
  · exact (by decide : Field "a/b.c".toList)
  · intro kind
    exact List.not_mem_nil
  · exact (by decide : Field "a/b.c~".toList)

/-- Two names of files that become `0000.c`. -/
theorem paths_collide :
    (∀ c ∈ [Call.path "a..c".toList, .path "a.c".toList], c.Ordinary) ∧
      ¬ ∀ a ∈ ((State.first []).calls [] [.path "a..c".toList, .path "a.c".toList]).2,
        ∀ b ∈ ((State.first []).calls [] [.path "a..c".toList, .path "a.c".toList]).2, a.1 ≠ b.1 → a.2 ≠ b.2 := by
  refine ⟨fun c hc => ?_, fun h => ?_⟩
  · simp only [List.mem_cons, List.not_mem_nil, or_false] at hc
    rcases hc with rfl | rfl
    · exact (by decide : Field "a..c".toList)
    · exact (by decide : Field "a.c".toList)
  · have hlog : ((State.first []).calls [] [.path "a..c".toList, .path "a.c".toList]).2 =
        [("a..c".toList, "0000.c".toList), ("a.c".toList, "0000.c".toList)] := by decide +kernel
    rw [hlog] at h
    exact h _ List.mem_cons_self _ (List.mem_cons_of_mem _ List.mem_cons_self) (by decide) rfl

end Nfsdump.Anonymize
