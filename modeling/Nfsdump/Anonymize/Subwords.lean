/-
  Nfsdump.Anonymize.Subwords — subwords and hosts keep apart under new names
  (scripts/anonymize.pl).

  Proved, over any run of lookups and restarts that does not ask for the reserved key:
  - `subwords_hosts_injects`: the same subword or host has the same name, different ones have
    different names, and no name given out for a new subword is on the literal list.
  The reserved key is where the database keeps the counter, and what is asked for under it is
  the counter itself: `reserved_host_clashes`.
-/

import Nfsdump.Anonymize.Maps

namespace Nfsdump.Anonymize

open Renaming

theorem hex4_injective : Function.Injective hex4 := fun _ _ h => Digits.padded_injective (by decide) (by decide) (by decide) h

theorem decimal_injective : Function.Injective decimal := fun _ _ h => Digits.toDigits_injective (by decide) (by decide) h

theorem mem_hex4 {c : Char} {n : Nat} (h : c ∈ hex4 n) : c ∈ "0123456789abcdef".toList := by
  rcases List.mem_append.mp h with h | h
  · rw [List.eq_of_mem_replicate h]
    decide
  · obtain ⟨d, hd, rfl⟩ := Digits.mem_toDigits (by decide) h
    interval_cases d <;> decide

/-- Whatever the counter, what it prints as is no word of the list. -/
theorem hex4_mapped (n : Nat) : hex4 n ∉ UnmappedWords := by
  intro hmem
  have hall : ∀ w ∈ UnmappedWords, ∃ c ∈ w, c ∉ "0123456789abcdef".toList := by decide
  obtain ⟨c, hc, hno⟩ := hall _ hmem
  exact hno (mem_hex4 hc)

theorem supply_word_injective : Function.Injective Kind.word.supply := fun _ _ h => by
  have := hex4_injective h
  change 0 + _ = 0 + _ at this
  omega

theorem supply_host_injective : Function.Injective Kind.host.supply := fun _ _ h => Nat.add_left_cancel (decimal_injective h)

theorem rename_word_mapped {ks : List Text} {key v : Text} (h : Kind.word.rename ks key = some v) (hkey : key ∉ UnmappedWords) :
    v ∉ UnmappedWords := by
  have hunfixed : Kind.word.fixed key = none := if_neg hkey
  by_cases hk : key ∈ ks
  · rw [Kind.rename, rename_of_mem hunfixed hk, Option.some_inj] at h
    rw [← h]
    exact hex4_mapped _
  · rw [Kind.rename, rename_eq_none.mpr ⟨hunfixed, hk⟩] at h
    cases h

/-- The substitutions applied to subwords and to hosts over a whole run, with restarts. -/
theorem subwords_hosts_injects (base : Text) (es : List Event) (hes : ∀ kind, MAXKEY ∉ asks kind es) :
    Injects (names .word ((State.first base).run base es).2) ∧
      Injects (names .host ((State.first base).run base es).2) ∧
      (∀ p ∈ names .word ((State.first base).run base es).2, p.1 ∉ UnmappedWords → p.2 ∉ UnmappedWords) ∧
      ∀ n, hex4 n ∉ UnmappedWords := by
  have hlog := (run_represents base hes).2
  refine ⟨?_, ?_, fun p hp => rename_word_mapped (hlog.named .word known_word p hp), hex4_mapped⟩
  · refine injects_of_avoid supply_word_injective (Kind.fixed_injective _) (fun i _ f v hf heq => ?_) (hlog.named .word known_word)
    obtain ⟨hmem, rfl⟩ := Kind.fixed_eq_some.mp hf
    exact hex4_mapped _ (heq ▸ hmem)
  · refine injects_of_avoid supply_host_injective (Kind.fixed_injective _) (fun i _ f v hf _ => ?_) (hlog.named .host known_host)
    exact List.not_mem_nil (Kind.fixed_eq_some.mp hf).1

theorem subwords_hosts_injects_restart :
    Injects (names .word ((State.first []).run [] [.word "a.core".toList, .restart (.empty true), .word "b.a".toList, .host ['1']]).2) :=
  (subwords_hosts_injects [] _ fun kind => by cases kind <;> decide).1

/-- Under the reserved key a host gets the name that the next new one gets. -/
theorem reserved_host_clashes : ¬ Injects (names .host ((State.first []).run [] [.host MAXKEY, .host "0a000001".toList]).2) := by
  intro h
  have hlog : names .host ((State.first []).run [] [.host MAXKEY, .host "0a000001".toList]).2 =
      [(MAXKEY, "30".toList), ("0a000001".toList, "30".toList)] := by decide
  rw [hlog] at h
  have hkeys := (h _ (List.mem_cons_self ..) _ (List.mem_cons_of_mem _ (List.mem_cons_self ..))).mpr rfl
  exact absurd hkeys (by decide)

end Nfsdump.Anonymize
