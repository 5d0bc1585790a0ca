/-
  Nfsdump.Anonymize.Ids — users and groups keep apart under new names for as long as the
  counter has not reached a name of the literal lists (scripts/anonymize.pl).

  The lists hold `60001` and the like as they are written in decimal, and names are hex: the
  counter starts at 101000, above every listed number, and its name is `60001` after 292217
  new ids.

  Proved (`ids_injects_iff`): over any run, ids of a kind keep apart iff at most 292217 of
  those asked for are new.
-/

import Nfsdump.Anonymize.Maps

namespace Nfsdump.Anonymize

open Renaming

def IsHexToken (t : Text) : Prop := t ≠ [] ∧ ∀ c ∈ t, c ∈ "0123456789abcdefABCDEF".toList

instance (t : Text) : Decidable (IsHexToken t) := inferInstanceAs (Decidable (_ ∧ _))

def Event.OnIds : Event → Prop
  | .uid t => IsHexToken t
  | .gid t => IsHexToken t
  | .restart _ => True
  | _ => False

/-- The kinds with ids that are not mapped. -/
def Kind.IsOwner (kind : Kind) : Prop := kind = .uid ∨ kind = .gid

/-- What the listed ids are mapped to. -/
def Kind.pins (kind : Kind) : List (Text × Text) := kind.unmapped.map fun f => (f, f)

/-- How many of the ids asked for are not listed. -/
def newIds (kind : Kind) (es : List Event) : Nat := ((asks kind es).filter fun t => t ∉ kind.unmapped).toFinset.card

/-! ## Names of the supply -/

variable {kind : Kind} {es : List Event}

theorem hex_injective : Function.Injective hex := fun _ _ h => Digits.toDigits_injective (by decide) (by decide) h

theorem Kind.IsOwner.supply (hk : kind.IsOwner) (i : Nat) : kind.supply i = hex (101000 + i) := by
  rcases hk with rfl | rfl <;> rfl

/-- The listed ids, as numbers. -/
theorem unmapped_ids (hk : kind.IsOwner) {f : Text} (hf : f ∈ kind.unmapped) : ∃ n, f = hex n ∧ (n < 101000 ∨ 0x60001 ≤ n) := by
  have hall : ∀ g ∈ UnmappedUIDs ++ UnmappedGIDs, ∃ n ∈ [0, 1, 2, 3, 4, 6, 7, 8, 0x60001, 0x60002, 0x65533, 0x65534, 0x65535],
      g = hex n ∧ (n < 101000 ∨ 0x60001 ≤ n) := by decide
  have hmem : f ∈ UnmappedUIDs ++ UnmappedGIDs := by
    rcases hk with rfl | rfl
    · exact List.mem_append_left _ hf
    · exact List.mem_append_right _ hf
  obtain ⟨n, -, hn⟩ := hall f hmem
  exact ⟨n, hn⟩

theorem first_clash (hk : kind.IsOwner) : kind.supply (0x60001 - 101000) ∈ kind.unmapped := by
  rw [hk.supply]
  rcases hk with rfl | rfl <;> decide

theorem supply_avoids_iff (hk : kind.IsOwner) (n : Nat) :
    (∀ i < n, ∀ f v, kind.fixed f = some v → kind.supply i ≠ v) ↔ n ≤ 0x60001 - 101000 := by
  constructor
  · intro h
    by_contra hlt
    exact h _ (Nat.lt_of_not_le hlt) _ _ (Kind.fixed_eq_some.mpr ⟨first_clash hk, rfl⟩) rfl
  · intro hn i hi f v hf heq
    obtain ⟨hmem, rfl⟩ := Kind.fixed_eq_some.mp hf
    obtain ⟨m, rfl, hm⟩ := unmapped_ids hk hmem
    rw [hk.supply] at heq
    have := hex_injective heq
    omega

/-! ## Runs -/

theorem Kind.IsOwner.known {sure : Prop} (hk : kind.IsOwner) : kind.Known sure :=
  Kind.known_of_ne (by rcases hk with rfl | rfl <;> decide)

theorem asked_length_ids (kind : Kind) (es : List Event) : (asked kind.fixed (asks kind es)).length = newIds kind es := by
  rw [asked_length, newIds]
  congr 2
  apply List.filter_congr
  intro t _
  unfold Kind.fixed
  split <;> simp [*]

theorem not_isHexToken_maxkey : ¬ IsHexToken MAXKEY := by decide

theorem OnIds.ordinary (hes : ∀ e ∈ es, e.OnIds) (kind : Kind) : MAXKEY ∉ asks kind es := by
  intro h
  obtain ⟨e, he, hkey⟩ := List.mem_flatMap.mp h
  have hon := hes e he
  cases e with
  | uid t | gid t =>
    simp only [Event.asks] at hkey
    split at hkey
    · rw [List.mem_singleton] at hkey
      exact not_isHexToken_maxkey (hkey ▸ hon)
    · cases hkey
  | restart r => cases hkey
  | word w => exact hon
  | host t => exact hon
  | fileid t => exact hon

theorem Logged.exists_name {log : List Entry} {as qs : Kind → List Text} {sure : Prop} (h : Logged sure log as qs) {k : Text}
    (hk : k ∈ as kind) : ∃ v, (k, v) ∈ names kind log := by
  rw [← h.keys kind] at hk
  obtain ⟨p, hp, rfl⟩ := List.mem_map.mp hk
  exact ⟨p.2, hp⟩

/-- Users and groups, over any run of lookups and restarts: the same id has the same name,
    different ids different names, counting the ids that keep theirs. -/
theorem ids_injects_iff (base : Text) (es : List Event) (hes : ∀ e ∈ es, e.OnIds) :
    (∀ kind : Kind, kind.IsOwner → Injects (names kind ((State.first base).run base es).2 ++ kind.pins)) ↔
      ∀ kind : Kind, kind.IsOwner → newIds kind es ≤ 0x60001 - 101000 := by
  have hlog := (run_represents base (OnIds.ordinary hes)).2
  refine forall_congr' fun kind => forall_congr' fun hk => ?_
  have hinj : Function.Injective kind.supply := by
    intro i j hij
    rw [hk.supply, hk.supply] at hij
    have := hex_injective hij
    omega
  rw [injects_iff (asks kind es) hinj kind.fixed_injective, asked_length_ids, supply_avoids_iff hk]
  · intro p hp
    rcases List.mem_append.mp hp with hp | hp
    · exact hlog.named kind hk.known p hp
    · obtain ⟨f, hf, rfl⟩ := List.mem_map.mp hp
      exact rename_of_fixed (Kind.fixed_eq_some.mpr ⟨hf, rfl⟩)
  · intro k hk
    obtain ⟨v, hv⟩ := hlog.exists_name hk
    exact ⟨v, List.mem_append_left _ hv⟩
  · intro f v hf
    obtain ⟨hf, rfl⟩ := Kind.fixed_eq_some.mp hf
    exact List.mem_append_right _ (List.mem_map_of_mem hf)

theorem ids_injects_iff_restart :
    (∀ kind : Kind, kind.IsOwner →
      Injects (names kind ((State.first []).run [] [.uid ['3', 'e', '8'], .restart (.empty true), .gid ['3', 'e', '8']]).2 ++
        kind.pins)) ↔
      ∀ kind : Kind, kind.IsOwner →
        newIds kind [.uid ['3', 'e', '8'], .restart (.empty true), .gid ['3', 'e', '8']] ≤ 0x60001 - 101000 := by
  refine ids_injects_iff [] _ fun e he => ?_
  have htoken : IsHexToken ['3', 'e', '8'] := by decide
  simp only [List.mem_cons, List.not_mem_nil, or_false] at he
  rcases he with rfl | rfl | rfl
  · exact htoken
  · trivial
  · exact htoken

/-! ## A run that reaches a listed id -/

/-- Ids that are not listed, all different. -/
def newUsers (n : Nat) : List Text := (List.range n).map fun i => hex (0x100000 + i)

/-- So many new users, and then the listed user `60001`. -/
def newUsersThen60001 (n : Nat) : List Event := (newUsers n).map Event.uid ++ [.uid "60001".toList]

theorem newUsers_fresh (n : Nat) : Fresh Kind.uid.fixed (newUsers n) := by
  refine ⟨List.nodup_range.map fun i j hij => Nat.add_left_cancel (hex_injective hij), fun k hk => if_neg fun hmem => ?_⟩
  obtain ⟨i, -, rfl⟩ := List.mem_map.mp hk
  have hall : ∀ g ∈ UnmappedUIDs, ∃ m ∈ [0, 1, 2, 3, 4, 0x60001, 0x60002, 0x65533, 0x65534, 0x65535], g = hex m ∧ m ≤ 0x65535 := by
    decide
  obtain ⟨m, -, hm, hle⟩ := hall _ hmem
  have := hex_injective hm
  omega

theorem newUsersThen60001_onIds (n : Nat) : ∀ e ∈ newUsersThen60001 n, e.OnIds := by
  intro e he
  rcases List.mem_append.mp he with he | he
  · obtain ⟨t, ht, rfl⟩ := List.mem_map.mp he
    obtain ⟨i, -, rfl⟩ := List.mem_map.mp ht
    refine ⟨Nat.toDigits_ne_nil, fun c hc => ?_⟩
    obtain ⟨d, hd, rfl⟩ := Digits.mem_toDigits (by decide) hc
    interval_cases d <;> decide
  · rw [List.mem_singleton.mp he]
    exact (by decide : IsHexToken "60001".toList)

theorem asks_map_uid (ts : List Text) : asks .uid (ts.map Event.uid) = ts := by
  induction ts with
  | nil => rfl
  | cons t ts ih => exact congrArg (t :: ·) ih

theorem newUsersThen60001_asks (n : Nat) : asks .uid (newUsersThen60001 n) = newUsers n ++ ["60001".toList] := by
  rw [newUsersThen60001, asks, List.flatMap_append]
  exact congrArg (· ++ ["60001".toList]) (asks_map_uid _)

/-- With one new user too many, the last of them is `60001` too. -/
theorem users_clash {n : Nat} (hn : 0x60001 - 101000 < n) :
    ¬ Injects (names .uid ((State.first []).run [] (newUsersThen60001 n)).2) := by
  have hlog := (run_represents [] (OnIds.ordinary (newUsersThen60001_onIds n))).2
  have hfixed : Kind.uid.fixed "60001".toList = some (Kind.uid.supply (0x60001 - 101000)) := by decide
  have hlast : "60001".toList ∈ asks .uid (newUsersThen60001 n) := by
    rw [newUsersThen60001_asks]
    exact List.mem_append_right _ (List.mem_singleton_self _)
  refine not_injects (hlog.named .uid (Kind.known_of_ne (by decide))) (fun k hk => hlog.exists_name hk) ?_ hfixed ?_
  · rw [newUsersThen60001_asks, asked_concat, (newUsers_fresh n).asked_eq, ask, if_pos (Or.inl (by rw [hfixed]; rfl)), newUsers,
      List.length_map, List.length_range]
    exact hn
  · obtain ⟨v, hv⟩ := hlog.exists_name hlast
    have hboth := (hlog.named .uid (Kind.known_of_ne (by decide)) _ hv).symm.trans (rename_of_fixed hfixed)
    rw [← Option.some_inj.mp hboth]
    exact hv

theorem ids_not_injects :
    (∀ e ∈ newUsersThen60001 292218, e.OnIds) ∧
      ¬ Injects (names .uid ((State.first []).run [] (newUsersThen60001 292218)).2) :=
  ⟨newUsersThen60001_onIds _, users_clash (by decide)⟩

end Nfsdump.Anonymize
