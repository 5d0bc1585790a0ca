/-
  Nfsdump.Anonymize.Readings — what can be read back from an anonymized word.

  Of a word that is not on the literal list the decorations, the suffix and the root can be
  told, but for the dots at the end of the root and for the order of `~#` around nothing;
  and a word that is on the list is told from the others, but for `..` and
  `postponed-msgs.lock`, which others come to look like (`reading`). Proved:
  `renameWORD_eq_iff`, and for paths `renamePATH_eq_iff`.
-/

import Nfsdump.Anonymize.Pasted

namespace Nfsdump.Anonymize

variable {σ : Text → Text} {t w w' : Text} {d : Decorations} {B : Text}

/-! ## Readings -/

/-- What is left of a word: that it is on the list or looks like a word that is; or its
    decorations, its root without the dots at the end, if it has one, and its last part. -/
inductive Reading where
  | kept (word : Text)
  | parts (d : Decorations) (root : Option Text) (last : Text)
  deriving DecidableEq

def Decorations.bare : Decorations := ⟨[], false, false, false, false, false, false, false⟩

def Decorations.dotted : Decorations := { Decorations.bare with has_dot := true }

def postponed : Text := "postponed-msgs".toList

def lock : Text := "lock".toList

/-- `~#` around nothing reads as `#~`. -/
def Decorations.settle (d : Decorations) (body : Text) : Decorations :=
  if body = [] ∧ d.magic = [] ∧ d.has_v = false ∧ d.has_t = false ∧ d.has_spound = false ∧ d.has_epound = true then
    { d with has_spound := true, has_epound := false }
  else d

def reading (w : Text) : Reading :=
  if w ∈ UnmappedWords then .kept w
  else
    let (d, body) := decorations w
    match rootSuffix body with
    | none => .parts (d.settle body) none body
    | some (root, suffix) =>
      if d = .dotted ∧ trimDots root = [] ∧ suffix = [] then .kept ['.', '.']
      else if d = .bare ∧ trimDots root = postponed ∧ suffix = lock then .kept (postponed ++ '.' :: lock)
      else .parts d (some (trimDots root)) suffix

def renameReading (σ : Text → Text) : Reading → Text
  | .kept w => w
  | .parts d none last => d.paste (d.aword ++ renameSIMPLEWORD σ last)
  | .parts d (some root) last => d.paste (d.aword ++ (renameSIMPLEWORD σ root ++ '.' :: renameSuffix σ last))

theorem renameSIMPLEWORD_nil (σ : Text → Text) : renameSIMPLEWORD σ [] = [] := rfl

theorem renameSuffix_nil (σ : Text → Text) : renameSuffix σ [] = [] := if_neg (by decide +kernel)

theorem renameSIMPLEWORD_postponed (hσ : Naming σ) : renameSIMPLEWORD σ postponed = postponed := by
  rw [renameSIMPLEWORD_of_notMem σ (by decide), if_neg (by decide)]
  exact hσ.fixed postponed (by decide +kernel)

theorem renameSuffix_lock (σ : Text → Text) : renameSuffix σ lock = lock := if_pos (by decide +kernel)

theorem paste_settle (d : Decorations) (σ : Text → Text) (body : Text) :
    (d.settle body).paste ((d.settle body).aword ++ renameSIMPLEWORD σ body) = d.paste (d.aword ++ renameSIMPLEWORD σ body) := by
  unfold Decorations.settle
  split
  · rename_i h
    obtain ⟨rfl, hm, hv, ht, hs, he⟩ := h
    unfold Decorations.paste Decorations.aword
    simp only [hm, hv, ht, hs, he, if_true, renameSIMPLEWORD_nil]
    rfl
  · rfl

/-- A word becomes what its reading does. -/
theorem renameWORD_reading (hσ : Naming σ) (w : Text) : renameWORD σ w = renameReading σ (reading w) := by
  unfold renameWORD reading
  split
  · rfl
  generalize decorations w = db
  obtain ⟨d, body⟩ := db
  simp only
  unfold renameBody
  cases rootSuffix body with
  | none => exact (paste_settle d σ body).symm
  | some rs =>
    obtain ⟨root, suffix⟩ := rs
    simp only
    split
    · rename_i h
      obtain ⟨hd, hroot, hsuffix⟩ := h
      rw [← renameSIMPLEWORD_trim, hroot, hsuffix, renameSIMPLEWORD_nil, renameSuffix_nil, hd]
      rfl
    split
    · rename_i h
      obtain ⟨hd, hroot, hsuffix⟩ := h
      rw [← renameSIMPLEWORD_trim, hroot, hsuffix, renameSIMPLEWORD_postponed hσ, renameSuffix_lock, hd]
      rfl
    · show _ = d.paste (d.aword ++ (renameSIMPLEWORD σ (trimDots root) ++ '.' :: renameSuffix σ suffix))
      rw [renameSIMPLEWORD_trim]

theorem append_dot_injective {a b s s' : Text} (hs : '.' ∉ s) (hs' : '.' ∉ s') (h : a ++ '.' :: s = b ++ '.' :: s') : a = b ∧ s = s' := by
  rcases List.append_eq_append_iff.mp h with ⟨c, hb, hc⟩ | ⟨c, ha, hc⟩
  · cases c with
    | nil => exact ⟨by rw [hb, List.append_nil], (List.cons_eq_cons.mp hc).2⟩
    | cons x c =>
      refine absurd ?_ hs
      rw [(List.cons_eq_cons.mp hc).2]
      exact List.mem_append_right c List.mem_cons_self
  · cases c with
    | nil => exact ⟨by rw [ha, List.append_nil], (List.cons_eq_cons.mp hc).2.symm⟩
    | cons x c =>
      refine absurd ?_ hs'
      rw [(List.cons_eq_cons.mp hc).2]
      exact List.mem_append_right c List.mem_cons_self

theorem trimDots_of_notMem (h : '.' ∉ t) : trimDots t = t := by
  refine List.rdropWhile_eq_self_iff.mpr fun hne => ?_
  intro hlast
  have hdot : t.getLast hne = '.' := by simpa using hlast
  exact h (hdot ▸ List.getLast_mem hne)

theorem piece_of_line (hσ : Naming σ) (hline : '\n' ∉ w) :
    Piece (decorations w).1 (renameBody σ (decorations w).2) ∧ '\n' ∉ (decorations w).2 := by
  have hspell := decorations_spell hline
  have hbody : '\n' ∉ (decorations w).2 := fun hmem => hline (hspell.body_subset hmem)
  obtain ⟨hread, hdot, -⟩ := renameBody_readable hσ hbody
  refine ⟨⟨hspell.magic, hread, fun hd hs r hr => ?_⟩, hbody⟩
  obtain ⟨q, hq⟩ := hdot r hr
  exact hspell.undotted hd hs q hq

/-- A body is read back up to the dots at the end of its root. -/
theorem renameBody_injective (hσ : Naming σ) (ht : '\n' ∉ t) (hw : '\n' ∉ w) (h : renameBody σ t = renameBody σ w) :
    (rootSuffix t = none ∧ rootSuffix w = none ∧ t = w) ∨
      ∃ root root' suffix, rootSuffix t = some (root, suffix) ∧ rootSuffix w = some (root', suffix) ∧ trimDots root = trimDots root' := by
  have nodot : ∀ {t : Text}, '.' ∉ t → '.' ∉ renameSIMPLEWORD σ t := by
    intro t hdot
    rw [renameSIMPLEWORD_of_notMem σ hdot]
    split
    · exact List.not_mem_nil
    · exact hσ.notMem_dot hdot
  unfold renameBody at h
  rcases rootSuffix_line ht with ⟨hnone, hdot⟩ | ⟨root, suffix, hsome, -, hdot⟩
  · rcases rootSuffix_line hw with ⟨hnone', hdot'⟩ | ⟨root', suffix', hsome', -, hdot'⟩
    · rw [hnone, hnone'] at h
      have htrim := (renameSIMPLEWORD_eq_iff hσ).mp h
      rw [trimDots_of_notMem hdot, trimDots_of_notMem hdot'] at htrim
      exact Or.inl ⟨hnone, hnone', htrim⟩
    · rw [hnone, hsome'] at h
      have heq : renameSIMPLEWORD σ t = renameSIMPLEWORD σ root' ++ '.' :: renameSuffix σ suffix' := h
      exact absurd (heq ▸ List.mem_append_right _ List.mem_cons_self) (nodot hdot)
  · rcases rootSuffix_line hw with ⟨hnone', hdot'⟩ | ⟨root', suffix', hsome', -, hdot'⟩
    · rw [hsome, hnone'] at h
      have heq : renameSIMPLEWORD σ root ++ '.' :: renameSuffix σ suffix = renameSIMPLEWORD σ w := h
      exact absurd (heq ▸ List.mem_append_right _ List.mem_cons_self) (nodot hdot')
    · rw [hsome, hsome'] at h
      obtain ⟨hroot, hsuffix⟩ := append_dot_injective (renameSuffix_plain hσ hdot).1 (renameSuffix_plain hσ hdot').1 h
      have hsame := renameSuffix_injective hσ hdot hdot' hsuffix
      exact Or.inr ⟨root, root', suffix, hsome, hsame ▸ hsome', (renameSIMPLEWORD_eq_iff hσ).mp hroot⟩

/-- Two words that are not on the list. -/
theorem mapped_injective (hσ : Naming σ) (hw : w ∉ UnmappedWords) (hw' : w' ∉ UnmappedWords) (hline : '\n' ∉ w) (hline' : '\n' ∉ w')
    (h : renameWORD σ w = renameWORD σ w') : reading w = reading w' := by
  obtain ⟨hp, hbody⟩ := piece_of_line hσ hline
  obtain ⟨hp', hbody'⟩ := piece_of_line hσ hline'
  unfold renameWORD at h
  rw [if_neg hw, if_neg hw'] at h
  unfold reading
  rw [if_neg hw, if_neg hw']
  have hcases := paste_cases hp hp' h
  generalize decorations w = db at hp hbody hcases ⊢
  generalize decorations w' = db' at hp' hbody' hcases ⊢
  obtain ⟨d, body⟩ := db
  obtain ⟨d', body'⟩ := db'
  simp only at hcases hbody hbody' ⊢
  have swap : ∀ {d d' : Decorations} {body body' : Text}, '\n' ∉ body → '\n' ∉ body' →
      Swapped d (renameBody σ body) d' (renameBody σ body') → body = [] ∧ body' = [] ∧ d.settle [] = d'.settle [] := by
    intro d d' body body' hbody hbody' hs
    refine ⟨(renameBody_readable hσ hbody).2.2 hs.empty.1, (renameBody_readable hσ hbody').2.2 hs.empty.2, ?_⟩
    unfold Decorations.settle
    rw [if_pos ⟨rfl, hs.bare.1, hs.bare.2.1, hs.bare.2.2, hs.behind⟩, if_neg fun hno => ?_]
    · exact hs.before.symm
    · have hno' := hno.2.2.2.2.2
      rw [hs.before] at hno'
      cases hno'
  rcases hcases with ⟨rfl, hB⟩ | hs | hs
  · rcases renameBody_injective hσ hbody hbody' hB with ⟨hnone, hnone', rfl⟩ | ⟨root, root', suffix, hsome, hsome', htrim⟩
    · rw [hnone]
    · rw [hsome, hsome']
      simp only [htrim]
  · obtain ⟨rfl, rfl, hd⟩ := swap hbody hbody' hs
    show Reading.parts (d.settle []) none [] = .parts (d'.settle []) none []
    rw [hd]
  · obtain ⟨rfl, rfl, hd⟩ := swap hbody' hbody hs
    show Reading.parts (d.settle []) none [] = .parts (d'.settle []) none []
    rw [hd]

/-- The words of the list that other words come to look like. -/
theorem kept_table : ∀ u ∈ UnmappedWords, ∀ b : Bool, (opt b ['.']).isPrefixOf u → (b = false → u.head? ≠ some '.') →
    ∀ rs ∈ rootSuffix (u.drop (opt b ['.']).length), (rs.1 = [] ∨ Nameish (rs.1.takeWhile (· ≠ '.'))) →
      (rs.2 = [] ∨ rs.2 ∈ UnmappedSuffixes ∨ Nameish rs.2) →
      (u = ['.', '.'] ∧ b = true ∧ rs = ([], [])) ∨ (u = postponed ++ '.' :: lock ∧ b = false ∧ rs = (postponed, lock)) := by
  decide +kernel

theorem kept_line : ∀ u ∈ UnmappedWords, '\n' ∉ u := by decide +kernel

theorem kept_no_magic : ∀ u ∈ UnmappedWords, ∀ b : Bool, ∀ p ∈ [saves, cache], ¬ (opt b ['.'] ++ p ++ ['.']).isPrefixOf u := by
  decide +kernel

theorem kept_hexish : ∀ u ∈ UnmappedWords, ∀ b : Bool, (opt b ['.']).isPrefixOf u → ¬ Hexish (u.drop (opt b ['.']).length) := by
  decide +kernel

/-- A word that is not on the list and becomes one that is has at most a dot in front. -/
theorem kept_undecorated (hp : Piece d B) (hw : w ∈ UnmappedWords) (h : w = d.paste (d.aword ++ B)) :
    (d = .bare ∨ d = .dotted) ∧ w = opt d.has_dot ['.'] ++ B := by
  have hplain := Nameish.plain (Or.inl hw : Nameish w)
  have off : ∀ {b : Bool} {c : Char} {z : Text}, c ∈ z → c ∈ marks → (∀ x ∈ opt b z, x ∈ w) → b = false := by
    intro b c z hc hm hsub
    cases b with
    | false => rfl
    | true => exact absurd hm (hplain c (hsub c hc))
  have hin : ∀ x, x ∈ d.paste (d.aword ++ B) → x ∈ w := fun x hx => h ▸ hx
  unfold Decorations.paste at hin
  simp only [List.mem_append] at hin
  have hc : d.has_bcomma = false := off (c := ',') (by decide) (by decide) fun x hx => hin x (Or.inl hx)
  have hs : d.has_spound = false := off (c := '#') (by decide) (by decide) fun x hx => hin x (Or.inr (Or.inr (Or.inl hx)))
  have hv : d.has_v = false := off (c := ',') (z := [',', 'v']) (by decide) (by decide) fun x hx =>
    hin x (Or.inr (Or.inr (Or.inr (Or.inr (Or.inl hx)))))
  have ht : d.has_t = false := off (c := ',') (z := [',', 't']) (by decide) (by decide) fun x hx =>
    hin x (Or.inr (Or.inr (Or.inr (Or.inr (Or.inr (Or.inl hx))))))
  have he : d.has_epound = false := off (c := '#') (by decide) (by decide) fun x hx =>
    hin x (Or.inr (Or.inr (Or.inr (Or.inr (Or.inr (Or.inr (Or.inl hx)))))))
  have htw : d.has_twiddle = false := off (c := '~') (by decide) (by decide) fun x hx =>
    hin x (Or.inr (Or.inr (Or.inr (Or.inr (Or.inr (Or.inr (Or.inr hx)))))))
  have hu : w = opt d.has_dot ['.'] ++ (d.aword ++ B) := by
    rw [h]
    unfold Decorations.paste
    rw [hc, hs, hv, ht, he, htw]
    simp [opt]
  have hmagic : d.magic = [] ∧ d.aword = [] := by
    have starts : ∀ p : Text, d.aword = p ++ ['.'] → (opt d.has_dot ['.'] ++ p ++ ['.']).isPrefixOf w = true := by
      intro p ha
      rw [List.isPrefixOf_iff_prefix, hu, ha]
      exact ⟨B, by simp only [List.append_assoc]⟩
    rcases d.aword_mem hp.magic with hm | ⟨-, ha⟩ | ⟨-, ha⟩ | ⟨-, ha⟩
    · exact hm
    · exact absurd (starts saves ha) (kept_no_magic w hw d.has_dot saves (by decide))
    · exact absurd (starts cache ha) (kept_no_magic w hw d.has_dot cache (by decide))
    · refine absurd (by decide : '#' ∈ marks) (hplain '#' ?_)
      rw [hu, ha]
      exact List.mem_append_right _ (List.mem_append_left _ List.mem_cons_self)
  rw [hmagic.2, List.nil_append] at hu
  refine ⟨?_, hu⟩
  rcases d with ⟨magic, c, dot, s, v, t, e, tw⟩
  simp only at hc hs hv ht he htw hmagic
  rw [hc, hs, hv, ht, he, htw, hmagic.1]
  cases dot with
  | false => exact Or.inl rfl
  | true => exact Or.inr rfl

theorem drop_opt (b : Bool) (B : Text) : (opt b ['.'] ++ B).drop (opt b ['.']).length = B := List.drop_left

/-- A word of the list, and one that comes to look like it. -/
theorem kept_reading (hσ : Naming σ) (hw : w ∈ UnmappedWords) (hw' : w' ∉ UnmappedWords) (hline : '\n' ∉ w')
    (h : w = renameWORD σ w') : reading w' = .kept w := by
  obtain ⟨hp, hbody⟩ := piece_of_line hσ hline
  have hspell := (decorations_spell hline).spell
  unfold renameWORD at h
  rw [if_neg hw'] at h
  unfold reading
  rw [if_neg hw']
  obtain ⟨hd, hu⟩ := kept_undecorated hp hw h
  generalize decorations w' = db at hp hbody hspell hd hu ⊢
  obtain ⟨d, body⟩ := db
  simp only at hp hbody hspell hd hu ⊢
  have hword : w' = opt d.has_dot ['.'] ++ body := by
    rw [hspell]
    unfold Decorations.spell
    rcases hd with rfl | rfl
    · simp [opt, Decorations.bare]
    · simp [opt, Decorations.bare, Decorations.dotted]
  have hpre : (opt d.has_dot ['.']).isPrefixOf w = true := by
    rw [List.isPrefixOf_iff_prefix, hu]
    exact List.prefix_append _ _
  have hdrop : w.drop (opt d.has_dot ['.']).length = renameBody σ body := by
    rw [hu]
    exact drop_opt _ _
  have hhead : d.has_dot = false → w.head? ≠ some '.' := by
    intro hno he
    rw [hu, hno, show opt false ['.'] = [] from rfl, List.nil_append] at he
    have hs : d.has_spound = false := by
      rcases hd with rfl | rfl
      · rfl
      · rfl
    cases hB : renameBody σ body with
    | nil => rw [hB] at he; cases he
    | cons c r =>
      rw [hB, List.head?_cons, Option.some_inj] at he
      exact hp.undotted hno hs r (he ▸ hB)
  rcases rootSuffix_line hbody with ⟨hnone, hdot⟩ | ⟨root, suffix, hsome, -, hdot⟩
  · -- the body is one name: a hexadecimal one is not on the list, another is its own
    have hB : renameBody σ body = if body = [] then [] else σ body := by
      unfold renameBody
      rw [hnone]
      exact renameSIMPLEWORD_of_notMem σ hdot
    exfalso
    split at hB
    · rename_i hnil
      rw [hB] at hu
      rw [hnil, ← hu] at hword
      rw [hword] at hw'
      exact hw' hw
    · by_cases hfix : body ∈ UnmappedWords
      · rw [hB, hσ.fixed body hfix, ← hword] at hu
        exact hw' (hu ▸ hw)
      · obtain ⟨n, hn⟩ := hσ.mapped body hfix
        refine kept_hexish w hw d.has_dot hpre ?_
        rw [hdrop, hB, hn]
        exact hexish_hex4 n
  · have hB : renameBody σ body = renameSIMPLEWORD σ root ++ '.' :: renameSuffix σ suffix := by
      unfold renameBody
      rw [hsome]
    have hlineB : '\n' ∉ renameBody σ body := by
      intro hmem
      refine kept_line w hw ?_
      rw [hu]
      exact List.mem_append_right _ hmem
    have hsdot := (renameSuffix_plain hσ hdot).1
    have hcut : rootSuffix (w.drop (opt d.has_dot ['.']).length) = some (renameSIMPLEWORD σ root, renameSuffix σ suffix) := by
      rw [hdrop]
      rcases rootSuffix_line hlineB with ⟨-, hno⟩ | ⟨r, s, hrs, heq, hs⟩
      · exact absurd (hB ▸ List.mem_append_right _ List.mem_cons_self) hno
      · obtain ⟨rfl, rfl⟩ := append_dot_injective hsdot hs (hB.symm.trans heq)
        exact hrs
    have hfirst : renameSIMPLEWORD σ root = [] ∨ Nameish ((renameSIMPLEWORD σ root).takeWhile (· ≠ '.')) := by
      rcases renameSIMPLEWORD_head hσ root with ⟨hnil, -⟩ | ⟨name, rest, hname, hndot, heq, hrest⟩
      · exact Or.inl hnil
      · rw [heq, takeWhile_name hndot hrest]
        exact Or.inr hname
    rw [hsome]
    simp only
    rcases kept_table w hw d.has_dot hpre hhead _ hcut hfirst (renameSuffix_cases hσ hdot) with
      ⟨rfl, hb, hrs⟩ | ⟨rfl, hb, hrs⟩
    · rw [Prod.mk.injEq] at hrs
      have hroot : trimDots root = [] := (renameSIMPLEWORD_eq_iff hσ).mp (hrs.1.trans (renameSIMPLEWORD_nil σ).symm)
      have hsuffix : suffix = [] := renameSuffix_injective hσ hdot List.not_mem_nil (hrs.2.trans (renameSuffix_nil σ).symm)
      have hdd : d = .dotted := by
        rcases hd with rfl | rfl
        · cases hb
        · rfl
      rw [if_pos ⟨hdd, hroot, hsuffix⟩]
    · rw [Prod.mk.injEq] at hrs
      have hroot : trimDots root = trimDots postponed :=
        (renameSIMPLEWORD_eq_iff hσ).mp (hrs.1.trans (renameSIMPLEWORD_postponed hσ).symm)
      rw [trimDots_of_notMem (by decide : '.' ∉ postponed)] at hroot
      have hsuffix : suffix = lock := renameSuffix_injective hσ hdot (by decide) (hrs.2.trans (renameSuffix_lock σ).symm)
      have hdd : d = .bare := by
        rcases hd with rfl | rfl
        · rfl
        · cases hb
      rw [if_neg fun hno => absurd (hsuffix.symm.trans hno.2.2) (by decide), if_pos ⟨hdd, hroot, hsuffix⟩]

/-- Two words become the same iff they read the same. -/
theorem renameWORD_eq_iff (hσ : Naming σ) (hline : '\n' ∉ w) (hline' : '\n' ∉ w') :
    renameWORD σ w = renameWORD σ w' ↔ reading w = reading w' := by
  constructor
  · intro h
    by_cases hw : w ∈ UnmappedWords
    · have hkept : renameWORD σ w = w := if_pos hw
      have hread : reading w = .kept w := if_pos hw
      by_cases hw' : w' ∈ UnmappedWords
      · rw [hkept, show renameWORD σ w' = w' from if_pos hw'] at h
        rw [h]
      · rw [hread, kept_reading hσ hw hw' hline' (hkept ▸ h)]
    · by_cases hw' : w' ∈ UnmappedWords
      · have hkept : renameWORD σ w' = w' := if_pos hw'
        have hread : reading w' = .kept w' := if_pos hw'
        rw [hread, kept_reading hσ hw' hw hline (hkept ▸ h.symm)]
      · exact mapped_injective hσ hw hw' hline hline' h
  · intro h
    rw [renameWORD_reading hσ, h, renameWORD_reading hσ]

/-! ## Paths -/

theorem mem_paste {d : Decorations} {x : Text} {c : Char} (h : c ∈ d.paste x) : c ∈ x ∨ c ∈ [',', '.', '#', 'v', 't', '~'] := by
  have mark : ∀ {b : Bool} {z : Text}, z ⊆ [',', '.', '#', 'v', 't', '~'] → c ∈ opt b z → c ∈ x ∨ c ∈ [',', '.', '#', 'v', 't', '~'] :=
    fun hz hc => Or.inr (hz (mem_opt hc))
  unfold Decorations.paste at h
  simp only [List.mem_append] at h
  rcases h with h | h | h | h | h | h | h | h
  · exact mark (by decide) h
  · exact mark (by decide) h
  · exact mark (by decide) h
  · exact Or.inl h
  · exact mark (by decide) h
  · exact mark (by decide) h
  · exact mark (by decide) h
  · exact mark (by decide) h

theorem slash_notMem_renameWORD (hσ : Naming σ) (hline : '\n' ∉ w) : '/' ∉ renameWORD σ w := by
  unfold renameWORD
  split
  · rename_i hw
    intro hmem
    exact Nameish.plain (Or.inl hw) '/' hmem (by decide)
  · obtain ⟨hp, -⟩ := piece_of_line hσ hline
    intro hmem
    rcases mem_paste hmem with hmem | hmem
    · rcases List.mem_append.mp hmem with hmem | hmem
      · rcases (decorations w).1.aword_mem hp.magic with ⟨-, ha⟩ | ⟨-, ha⟩ | ⟨-, ha⟩ | ⟨-, ha⟩
        all_goals
          rw [ha] at hmem
          exact absurd hmem (by decide)
      · exact hp.readable.plain '/' hmem (by decide)
    · exact absurd hmem (by decide)

/-- Only an empty word becomes an empty one. -/
theorem eq_nil_of_renameWORD (hσ : Naming σ) (hline : '\n' ∉ w) (h : renameWORD σ w = []) : w = [] := by
  unfold renameWORD at h
  split at h
  · exact h
  have hspell := decorations_spell hline
  obtain ⟨hp, hbody⟩ := piece_of_line hσ hline
  generalize decorations w = db at hspell hp hbody h
  obtain ⟨d, body⟩ := db
  have hread := (renameBody_readable hσ hbody).2.2
  unfold Decorations.paste at h
  simp only [List.append_eq_nil_iff] at h
  obtain ⟨hc, hd, hs, ⟨ha, hB⟩, hv, ht, he, htw⟩ := h
  have hmagic : d.magic = [] := by
    rcases d.aword_mem hp.magic with ⟨hm, -⟩ | ⟨-, ha'⟩ | ⟨-, ha'⟩ | ⟨-, ha'⟩
    · exact hm
    all_goals
      rw [ha'] at ha
      exact absurd ha (by decide)
  have hword := hspell.spell
  unfold Decorations.spell at hword
  rw [hmagic, hc, hd, hs, hread hB, hv, ht, he, htw] at hword
  exact hword

theorem field_line {p c : Text} (hp : '\n' ∉ p) (hc : c ∈ split '/' p) : '\n' ∉ c := fun hmem => hp (Fields.subset_fields hc hmem)

theorem ended_components (hσ : Naming σ) {p : Text} (hp : '\n' ∉ p) : Fields.Ended ((split '/' p).map (renameWORD σ)) := by
  intro hne hnil
  rw [List.getLast_map] at hnil
  have hsplit : split '/' p ≠ [] := fun he => hne (by rw [he]; rfl)
  exact Fields.ended_fields '/' p hsplit (eq_nil_of_renameWORD hσ (field_line hp (List.getLast_mem hsplit)) hnil)

/-- What is left of a path: what is left of its components, without the empty ones at its end. -/
def readings (path : Text) : List Reading := (split '/' path).map reading

theorem map_eq_map_of {α β γ : Type*} {f : α → β} {g : α → γ} {P : α → Prop} (h : ∀ a b, P a → P b → f a = f b → g a = g b) :
    ∀ {as bs : List α}, (∀ a ∈ as, P a) → (∀ b ∈ bs, P b) → as.map f = bs.map f → as.map g = bs.map g
  | [], [], _, _, _ => rfl
  | [], _ :: _, _, _, hfs => nomatch hfs
  | _ :: _, [], _, _, hfs => nomatch hfs
  | a :: as, b :: bs, has, hbs, hfs => by
    rw [List.forall_mem_cons] at has hbs
    rw [List.map_cons, List.map_cons, List.cons_eq_cons] at hfs
    rw [List.map_cons, List.map_cons, h a b has.1 hbs.1 hfs.1, map_eq_map_of h has.2 hbs.2 hfs.2]

/-- Two paths become the same iff they read the same. -/
theorem renamePATH_eq_iff (hσ : Naming σ) {p q : Text} (hp : '\n' ∉ p) (hq : '\n' ∉ q) :
    renamePATH σ p = renamePATH σ q ↔ readings p = readings q := by
  have slash : ∀ {p : Text}, '\n' ∉ p → ∀ f ∈ (split '/' p).map (renameWORD σ), '/' ∉ f := by
    intro p hp f hf
    obtain ⟨c, hc, rfl⟩ := List.mem_map.mp hf
    exact slash_notMem_renameWORD hσ (field_line hp hc)
  constructor
  · intro h
    have hwords := Fields.intercalate_injective (slash hp) (slash hq) (ended_components hσ hp) (ended_components hσ hq) h
    exact map_eq_map_of (P := fun c => '\n' ∉ c) (fun c c' hc hc' he => (renameWORD_eq_iff hσ hc hc').mp he)
      (fun c hc => field_line hp hc) (fun c hc => field_line hq hc) hwords
  · intro h
    have hwords := map_eq_map_of (P := fun c => '\n' ∉ c) (fun c c' hc hc' he => (renameWORD_eq_iff hσ hc hc').mpr he)
      (fun c hc => field_line hp hc) (fun c hc => field_line hq hc) h
    exact congrArg (join '/') hwords

end Nfsdump.Anonymize
