/-
  Nfsdump.Anonymize.Renamed — anonymized words reveal only which subwords are equal
  (scripts/anonymize.pl, `anonymizeSIMPLEWORD`).

  Two runs side by side, from maps that were just set up: one over some words, one over the
  same words with their subwords renamed. The maps of the two agree at every subword and its
  renaming (`MapsAlike`), a lookup keeps this and gives both runs the same name
  (`Alike.subword`).

  Proved:
  - `renamed_same`: both runs print the same, where no subword is renamed to or from the
    reserved key of the databases;
  - `reserved_renamed_differs`: one that is shows the counter in one run and a name in the other.
-/

import Nfsdump.Anonymize.Maps
import Nfsdump.Lib.Fields

namespace Nfsdump.Anonymize

/-! ## Words of subwords -/

@[ext]
structure Subword where
  text : Text
  nonempty : text ≠ []
  dotless : '.' ∉ text
  deriving DecidableEq

/-- The word with these subwords. -/
def spell (w : List Subword) : Text := join '.' (w.map Subword.text)

theorem split_spell (w : List Subword) : split '.' (spell w) = w.map Subword.text := by
  apply Fields.fields_intercalate
  · intro f hf
    obtain ⟨k, -, rfl⟩ := List.mem_map.mp hf
    exact k.dotless
  · intro hne
    obtain ⟨k, -, hk⟩ := List.mem_map.mp (List.getLast_mem hne)
    rw [← hk]
    exact k.nonempty

/-- A renaming of the subwords that leaves the literal list alone. -/
structure Disguise where
  rename : Subword → Subword
  injective : Function.Injective rename
  fixes : ∀ k, k.text ∈ UnmappedWords → rename k = k

variable {σ : Disguise} {k : Subword}

/-- Nothing is renamed onto the list. -/
theorem Disguise.mem_iff (σ : Disguise) (k : Subword) : (σ.rename k).text ∈ UnmappedWords ↔ k.text ∈ UnmappedWords := by
  constructor
  · intro h
    rw [σ.injective (σ.fixes _ h)] at h
    exact h
  · intro h
    rw [σ.fixes k h]
    exact h

theorem Disguise.fixed (σ : Disguise) (k : Subword) : Kind.word.fixed (σ.rename k).text = Kind.word.fixed k.text := by
  by_cases h : k.text ∈ UnmappedWords
  · rw [σ.fixes k h]
  · have hk : Kind.word.fixed k.text = none := if_neg h
    have hk' : Kind.word.fixed (σ.rename k).text = none := if_neg (mt (σ.mem_iff k).mp h)
    rw [hk, hk']

/-- The subword is the reserved key before and after the renaming, or neither time. -/
def Disguise.Reserves (σ : Disguise) (k : Subword) : Prop := k.text = MAXKEY ↔ (σ.rename k).text = MAXKEY

/-! ## Runs -/

def anonymizeSIMPLEWORDs : State → List Text → State × List Text
  | s, [] => (s, [])
  | s, word :: words =>
    let r := anonymizeSIMPLEWORD s word
    let rest := anonymizeSIMPLEWORDs r.1 words
    (rest.1, r.2 :: rest.2)

/-- A process that has just started, with no files yet, or that keeps the maps in memory only. -/
def State.fresh (base : Option Text) : State := initializeMaps (openMapFiles base (fun _ => none) (State.boot fun _ _ => none))

/-! ## Maps that agree -/

/-- What one hash has for a subword, the other has for the renamed one. -/
def HashesAlike (σ : Disguise) (h h' : Hash) : Prop := ∀ k, σ.Reserves k → h' (σ.rename k).text = h k.text

structure MapsAlike (σ : Disguise) (m m' : Map) : Prop where
  counter : m'.counter = m.counter
  db : HashesAlike σ m.db m'.db
  cache : HashesAlike σ m.cache m'.cache

structure Alike (σ : Disguise) (s s' : State) : Prop where
  words : s.unmappedWords = Kind.word.fixed
  words' : s'.unmappedWords = Kind.word.fixed
  map : MapsAlike σ (s.maps .word) (s'.maps .word)

/-! ## Lookups keep them alike -/

theorem HashesAlike.put {h h' : Hash} {key key' : Text} (hh : HashesAlike σ h h')
    (hkey : ∀ j, σ.Reserves j → (j.text = key ↔ (σ.rename j).text = key')) (v : Text) :
    HashesAlike σ (h.store key v) (h'.store key' v) := by
  intro j hj
  by_cases hjk : j.text = key
  · rw [hjk, (hkey j hj).mp hjk, Hash.store_self, Hash.store_self]
  · rw [Hash.store_of_ne hjk, Hash.store_of_ne (mt (hkey j hj).mpr hjk)]
    exact hh j hj

theorem HashesAlike.put_name {h h' : Hash} (hh : HashesAlike σ h h') (k : Subword) (v : Text) :
    HashesAlike σ (h.store k.text v) (h'.store (σ.rename k).text v) := by
  apply hh.put
  intro j _
  rw [← Subword.ext_iff, ← Subword.ext_iff]
  exact σ.injective.eq_iff.symm

theorem HashesAlike.put_counter {h h' : Hash} (hh : HashesAlike σ h h') (v : Text) :
    HashesAlike σ (h.store MAXKEY v) (h'.store MAXKEY v) := hh.put (fun _ hj => hj) v

/-- A hit in the cache, a hit in the database, a miss: the same in both. -/
theorem MapsAlike.anonymize {m m' : Map} (h : MapsAlike σ m m') (print : Nat → Text) (hk : σ.Reserves k) :
    MapsAlike σ (m.anonymize print k.text).1 (m'.anonymize print (σ.rename k).text).1 ∧
      (m'.anonymize print (σ.rename k).text).2 = (m.anonymize print k.text).2 := by
  have hcache := h.cache k hk
  have hdb := h.db k hk
  rcases hc : m.cache k.text with _ | v
  · rw [hc] at hcache
    rcases hd : m.db k.text with _ | v
    · rw [hd] at hdb
      simp only [Map.anonymize, hc, hcache, hd, hdb, h.counter]
      exact ⟨⟨rfl, (h.db.put_name k _).put_counter _, h.cache.put_name k _⟩, trivial⟩
    · rw [hd] at hdb
      simp only [Map.anonymize, hc, hcache, hd, hdb]
      exact ⟨⟨h.counter, h.db, h.cache.put_name k v⟩, trivial⟩
  · rw [hc] at hcache
    simp only [Map.anonymize, hc, hcache]
    exact ⟨h, trivial⟩

variable {s s' : State}

theorem Alike.subword (h : Alike σ s s') (hk : σ.Reserves k) :
    Alike σ (anonymizeSubword s k.text).1 (anonymizeSubword s' (σ.rename k).text).1 ∧
      (anonymizeSubword s' (σ.rename k).text).2 = (anonymizeSubword s k.text).2 := by
  unfold anonymizeSubword
  rw [h.words, h.words', σ.fixed]
  rcases Kind.word.fixed k.text with _ | v
  · obtain ⟨hmap, hname⟩ := h.map.anonymize hex4 hk
    refine ⟨⟨h.words, h.words', ?_⟩, hname⟩
    show MapsAlike σ (Function.update s.maps .word _ .word) (Function.update s'.maps .word _ .word)
    rw [Function.update_self, Function.update_self]
    exact hmap
  · exact ⟨h, rfl⟩

theorem Alike.parts {w : List Subword} (h : Alike σ s s') (hw : ∀ k ∈ w, σ.Reserves k) :
    Alike σ (anonymizeParts s (w.map Subword.text)).1 (anonymizeParts s' ((w.map σ.rename).map Subword.text)).1 ∧
      (anonymizeParts s' ((w.map σ.rename).map Subword.text)).2 = (anonymizeParts s (w.map Subword.text)).2 := by
  induction w generalizing s s' with
  | nil => exact ⟨h, rfl⟩
  | cons k w ih =>
    obtain ⟨h₁, hname⟩ := h.subword (hw k List.mem_cons_self)
    obtain ⟨h₂, hnames⟩ := ih h₁ fun j hj => hw j (List.mem_cons_of_mem k hj)
    exact ⟨h₂, congrArg₂ List.cons hname hnames⟩

theorem Alike.simpleword {w : List Subword} (h : Alike σ s s') (hw : ∀ k ∈ w, σ.Reserves k) :
    Alike σ (anonymizeSIMPLEWORD s (spell w)).1 (anonymizeSIMPLEWORD s' (spell (w.map σ.rename))).1 ∧
      (anonymizeSIMPLEWORD s' (spell (w.map σ.rename))).2 = (anonymizeSIMPLEWORD s (spell w)).2 := by
  simp only [anonymizeSIMPLEWORD, split_spell]
  obtain ⟨h₁, hnames⟩ := h.parts hw
  exact ⟨h₁, congrArg (join '.') hnames⟩

theorem Alike.run (ws : List (List Subword)) : ∀ {s s' : State}, Alike σ s s' → (∀ w ∈ ws, ∀ k ∈ w, σ.Reserves k) →
    (anonymizeSIMPLEWORDs s' (ws.map fun w => spell (w.map σ.rename))).2 = (anonymizeSIMPLEWORDs s (ws.map spell)).2 := by
  induction ws with
  | nil =>
    intro s s' _ _
    rfl
  | cons w ws ih =>
    intro s s' h hws
    obtain ⟨h₁, hword⟩ := h.simpleword (hws w List.mem_cons_self)
    exact congrArg₂ List.cons hword (ih h₁ fun v hv => hws v (List.mem_cons_of_mem w hv))

/-! ## Fresh maps -/

theorem HashesAlike.storeAll {h h' : Hash} (hh : HashesAlike σ h h') :
    HashesAlike σ (h.storeAll UnmappedWords) (h'.storeAll UnmappedWords) := by
  intro k hk
  rw [Hash.storeAll_apply, Hash.storeAll_apply]
  by_cases hmem : k.text ∈ UnmappedWords
  · rw [σ.fixes k hmem, if_pos hmem, if_pos hmem]
  · rw [if_neg hmem, if_neg (mt (σ.mem_iff k).mp hmem)]
    exact hh k hk

theorem alike_fresh (base : Option Text) (σ : Disguise) : Alike σ (State.fresh base) (State.fresh base) := by
  have hempty : HashesAlike σ (fun _ => none) fun _ => none := fun _ _ => rfl
  have hwords : (State.fresh base).unmappedWords = Kind.word.fixed := by
    cases base <;> exact storeAll_words fun k => Or.inl rfl
  refine ⟨hwords, hwords, rfl, ?_, ?_⟩
  · show HashesAlike σ (Hash.storeAll _ UnmappedWords) (Hash.storeAll _ UnmappedWords)
    apply HashesAlike.storeAll
    cases base
    · exact hempty
    · exact hempty.put_counter _
  · cases base <;> exact hempty

/-- Words and the same words under another choice of subwords are anonymized to the same. -/
theorem renamed_same (base : Option Text) (σ : Disguise) (ws : List (List Subword))
    (h : ∀ w ∈ ws, ∀ k ∈ w, k.text = MAXKEY ↔ (σ.rename k).text = MAXKEY) :
    (anonymizeSIMPLEWORDs (State.fresh base) (ws.map fun w => spell (w.map σ.rename))).2 =
      (anonymizeSIMPLEWORDs (State.fresh base) (ws.map spell)).2 := (alike_fresh base σ).run ws h

/-- Two subwords off the list in each other's place. -/
def Disguise.swap (a b : Subword) (ha : a.text ∉ UnmappedWords) (hb : b.text ∉ UnmappedWords) : Disguise where
  rename := Equiv.swap a b
  injective := (Equiv.swap a b).injective
  fixes := by
    intro k hk
    apply Equiv.swap_apply_of_ne_of_ne
    · rintro rfl
      exact ha hk
    · rintro rfl
      exact hb hk

def core : Subword := ⟨"core".toList, by decide, by decide⟩

def thesis : Subword := ⟨"thesis".toList, by decide, by decide⟩

def budget : Subword := ⟨"budget".toList, by decide, by decide⟩

def reserved : Subword := ⟨MAXKEY, by decide, by decide⟩

theorem thesis_mapped : thesis.text ∉ UnmappedWords := by decide +kernel

theorem budget_mapped : budget.text ∉ UnmappedWords := by decide +kernel

theorem renamed_same_sample :
    (anonymizeSIMPLEWORDs (State.fresh none) ([[core, thesis], [budget]].map fun w =>
        spell (w.map (Disguise.swap thesis budget thesis_mapped budget_mapped).rename))).2 =
      (anonymizeSIMPLEWORDs (State.fresh none) ([[core, thesis], [budget]].map spell)).2 :=
  renamed_same none _ _ (by decide)

/-- The reserved key itself is shown as the counter. -/
theorem reserved_renamed_differs : ¬ ∀ (base : Option Text) (σ : Disguise) (ws : List (List Subword)),
    (anonymizeSIMPLEWORDs (State.fresh base) (ws.map fun w => spell (w.map σ.rename))).2 =
      (anonymizeSIMPLEWORDs (State.fresh base) (ws.map spell)).2 := by
  intro h
  have hrun := h none (Disguise.swap reserved thesis (Kind.maxkey_notMem .word) thesis_mapped) [[budget], [reserved]]
  exact absurd hrun (by decide +kernel)

end Nfsdump.Anonymize
