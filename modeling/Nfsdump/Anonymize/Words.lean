/-
  Nfsdump.Anonymize.Words — words and paths (scripts/anonymize.pl, `anonymizeWORD` and
  `anonymizePATH`): a word's decorations are taken off in a fixed order, what is left is
  named part by part, and the decorations are put back in another order.

  Proved:
  - `decorations_spell`: a word without line breaks is spelled by its decorations around
    its body, so they and the body are all of it;
  - `anonymizePATH_spec`: under maps that hold a naming, a path's parts are replaced by it
    and nothing else is (`PATH`).
-/

import Nfsdump.Anonymize.Subwords
import Nfsdump.Lib.Fields

namespace Nfsdump.Anonymize

open Renaming

/-! ## The patterns -/

/-- `(.*)$` -/
def lineRest (t : Text) : Option Text :=
  let line := t.takeWhile (· ≠ '\n')
  if t.drop line.length = [] ∨ t.drop line.length = ['\n'] then some line else none

/-- `/^pre(.*)$/` -/
def afterPrefix (pre t : Text) : Option Text := if pre.isPrefixOf t then lineRest (t.drop pre.length) else none

/-- `/^(.*)suf$/` -/
def beforeSuffix (suf t : Text) : Option Text :=
  let line := if t.getLast? = some '\n' then t.dropLast else t
  let front := line.take (line.length - suf.length)
  if suf.isSuffixOf line ∧ '\n' ∉ front then some front else none

/-- `/^(.*)\.([^.]*)$/` -/
def rootSuffix (t : Text) : Option (Text × Text) :=
  let front := t.rdropWhile (· ≠ '.')
  if front ≠ [] ∧ '\n' ∉ front.dropLast then some (front.dropLast, t.rtakeWhile (· ≠ '.')) else none

/-! ## anonymizeWORD and anonymizePATH -/

/-- The prefix that is peeled off, and the `$has_` variables. -/
structure Decorations where
  magic : Text
  has_bcomma : Bool
  has_dot : Bool
  has_spound : Bool
  has_v : Bool
  has_t : Bool
  has_epound : Bool
  has_twiddle : Bool
  deriving DecidableEq

def saves : Text := ['.', 's', 'a', 'v', 'e', 's', '-']
def cache : Text := ['c', 'a', 'c', 'h', 'e']
def pico : Text := ['#', 'p', 'i', 'c', 'o']

def peelMagic (word : Text) : Text × Text :=
  match afterPrefix saves word with
  | some rest => (saves, rest)
  | none =>
    match afterPrefix cache word with
    | some rest => (cache, rest)
    | none =>
      match afterPrefix pico word with
      | some rest => (pico, rest)
      | none => ([], word)

/-- `if ($word =~ …) { $has = 1; $word = $1; } else { $has = 0; }` -/
def peel (matched : Option Text) (word : Text) : Bool × Text :=
  match matched with
  | some rest => (true, rest)
  | none => (false, word)

/-- The decorations of a word, and the word without them. -/
def decorations (word : Text) : Decorations × Text :=
  let m := peelMagic word
  let c := peel (afterPrefix [','] m.2) m.2
  let d := peel (afterPrefix ['.'] c.2) c.2
  let p := peel (afterPrefix ['#'] d.2) d.2
  let v := peel (beforeSuffix [',', 'v'] p.2) p.2
  let t := peel (beforeSuffix [',', 't'] v.2) v.2
  let e := peel (beforeSuffix ['#'] t.2) t.2
  let w := peel (beforeSuffix ['~'] e.2) e.2
  (⟨m.1, c.1, d.1, p.1, v.1, t.1, e.1, w.1⟩, w.2)

def opt (has : Bool) (t : Text) : Text := if has then t else []

/-- `$1 . '.'` -/
def Decorations.aword (d : Decorations) : Text := if d.magic = [] then [] else d.magic ++ ['.']

/-- The pieces pasted together. -/
def Decorations.paste (d : Decorations) (aword : Text) : Text :=
  opt d.has_bcomma [','] ++ (opt d.has_dot ['.'] ++ (opt d.has_spound ['#'] ++ (aword ++
    (opt d.has_v [',', 'v'] ++ (opt d.has_t [',', 't'] ++ (opt d.has_epound ['#'] ++ opt d.has_twiddle ['~']))))))

def anonymizeSuffix (s : State) (suffix : Text) : State × Text :=
  match s.unmappedSuffix suffix with
  | some v => (s, v)
  | none => anonymizeSIMPLEWORD s suffix

def anonymizeWORD (s : State) (word : Text) : State × Text :=
  match s.unmappedWords word with
  | some v => (s, v)
  | none =>
    let (d, body) := decorations word
    match rootSuffix body with
    | some (root, suffix) =>
      let (s, nroot) := anonymizeSIMPLEWORD s root
      let (s, nsuffix) := anonymizeSuffix s suffix
      (s, d.paste (d.aword ++ (nroot ++ '.' :: nsuffix)))
    | none =>
      let (s, nword) := anonymizeSIMPLEWORD s body
      (s, d.paste (d.aword ++ nword))

def anonymizeComponents : State → List Text → State × List Text
  | s, [] => (s, [])
  | s, c :: components =>
    let (s, nc) := anonymizeWORD s c
    let (s, ncomponents) := anonymizeComponents s components
    (s, nc :: ncomponents)

def anonymizePATH (s : State) (path : Text) : State × Text :=
  let (s, ncomponents) := anonymizeComponents s (split '/' path)
  (s, join '/' ncomponents)

/-! ## Words without line breaks -/

theorem lineRest_line {t : Text} (h : '\n' ∉ t) : lineRest t = some t := by
  have hall : t.takeWhile (· ≠ '\n') = t :=
    List.takeWhile_eq_self_iff.mpr fun c hc => by
      rw [decide_eq_true_eq]
      rintro rfl
      exact h hc
  unfold lineRest
  simp only [hall, List.drop_length, true_or, if_true]

theorem afterPrefix_line {pre t : Text} (h : '\n' ∉ t) : ∀ r, afterPrefix pre t = some r ↔ t = pre ++ r := by
  intro r
  unfold afterPrefix
  constructor
  · intro hr
    split at hr
    · rename_i hpre
      rw [lineRest_line fun hmem => h (List.mem_of_mem_drop hmem), Option.some_inj] at hr
      rw [← hr]
      exact (List.prefix_iff_eq_append.mp (List.isPrefixOf_iff_prefix.mp hpre)).symm
    · cases hr
  · rintro rfl
    have hpre : pre.isPrefixOf (pre ++ r) = true := List.isPrefixOf_iff_prefix.mpr (List.prefix_append pre r)
    rw [if_pos hpre, List.drop_left, lineRest_line fun hmem => h (List.mem_append_right pre hmem)]

theorem beforeSuffix_line {suf t : Text} (h : '\n' ∉ t) : ∀ r, beforeSuffix suf t = some r ↔ t = r ++ suf := by
  intro r
  have hlast : ¬ t.getLast? = some '\n' := fun he => h (List.mem_of_getLast? he)
  unfold beforeSuffix
  simp only [if_neg hlast]
  constructor
  · intro hr
    split at hr
    · rename_i hsuf
      rw [Option.some_inj] at hr
      rw [← hr]
      exact (List.suffix_iff_eq_append.mp (List.isSuffixOf_iff_suffix.mp hsuf.1)).symm
    · cases hr
  · rintro rfl
    have hsuf : suf.isSuffixOf (r ++ suf) = true := List.isSuffixOf_iff_suffix.mpr (List.suffix_append r suf)
    have hfront : (r ++ suf).take ((r ++ suf).length - suf.length) = r := by
      rw [List.length_append, Nat.add_sub_cancel, List.take_left]
    rw [hfront, if_pos ⟨hsuf, fun hmem => h (List.mem_append_left suf hmem)⟩]

/-- How the decorations were written around the body. -/
def Decorations.spell (d : Decorations) (body : Text) : Text :=
  d.magic ++ (opt d.has_bcomma [','] ++ (opt d.has_dot ['.'] ++ (opt d.has_spound ['#'] ++ (body ++
    (opt d.has_twiddle ['~'] ++ (opt d.has_epound ['#'] ++ (opt d.has_t [',', 't'] ++ opt d.has_v [',', 'v'])))))))

theorem peelMagic_spell {word : Text} (h : '\n' ∉ word) :
    word = (peelMagic word).1 ++ (peelMagic word).2 ∧ (peelMagic word).1 ∈ [[], saves, cache, pico] := by
  unfold peelMagic
  cases h1 : afterPrefix saves word with
  | some rest => exact ⟨(afterPrefix_line h rest).mp h1, (by decide : saves ∈ [[], saves, cache, pico])⟩
  | none =>
    cases h2 : afterPrefix cache word with
    | some rest => exact ⟨(afterPrefix_line h rest).mp h2, (by decide : cache ∈ [[], saves, cache, pico])⟩
    | none =>
      cases h3 : afterPrefix pico word with
      | some rest => exact ⟨(afterPrefix_line h rest).mp h3, (by decide : pico ∈ [[], saves, cache, pico])⟩
      | none => exact ⟨rfl, (by decide : [] ∈ [[], saves, cache, pico])⟩

theorem peel_front (pre : Text) {t : Text} (h : '\n' ∉ t) :
    t = opt (peel (afterPrefix pre t) t).1 pre ++ (peel (afterPrefix pre t) t).2 ∧
      ((peel (afterPrefix pre t) t).1 = false → ∀ r, t ≠ pre ++ r) := by
  cases hr : afterPrefix pre t with
  | some rest => exact ⟨(afterPrefix_line h rest).mp hr, fun hno => nomatch hno⟩
  | none =>
    refine ⟨rfl, fun _ r he => ?_⟩
    rw [(afterPrefix_line h r).mpr he] at hr
    cases hr

theorem peel_back (suf : Text) {t : Text} (h : '\n' ∉ t) :
    t = (peel (beforeSuffix suf t) t).2 ++ opt (peel (beforeSuffix suf t) t).1 suf := by
  cases hr : beforeSuffix suf t with
  | some rest => exact (beforeSuffix_line h rest).mp hr
  | none => exact (List.append_nil t).symm

/-- What the tests leave: the word in pieces, and no dot in front of a body that nothing is in front of. -/
structure Spelled (word : Text) (d : Decorations) (body : Text) : Prop where
  spell : word = d.spell body
  magic : d.magic ∈ [[], saves, cache, pico]
  undotted : d.has_dot = false → d.has_spound = false → ∀ rest, body ≠ '.' :: rest

theorem decorations_spell {word : Text} (h : '\n' ∉ word) : Spelled word (decorations word).1 (decorations word).2 := by
  obtain ⟨hm, hmagic⟩ := peelMagic_spell h
  unfold decorations
  dsimp only
  generalize peelMagic word = m at hm hmagic ⊢
  have h1 : '\n' ∉ m.2 := fun hmem => h (hm ▸ List.mem_append_right _ hmem)
  obtain ⟨hc, -⟩ := peel_front [','] h1
  generalize peel (afterPrefix [','] m.2) m.2 = c at hc ⊢
  have h2 : '\n' ∉ c.2 := fun hmem => h1 (hc ▸ List.mem_append_right _ hmem)
  obtain ⟨hd, hnodot⟩ := peel_front ['.'] h2
  generalize peel (afterPrefix ['.'] c.2) c.2 = d at hd hnodot ⊢
  have h3 : '\n' ∉ d.2 := fun hmem => h2 (hd ▸ List.mem_append_right _ hmem)
  obtain ⟨hp, -⟩ := peel_front ['#'] h3
  generalize peel (afterPrefix ['#'] d.2) d.2 = p at hp ⊢
  have h4 : '\n' ∉ p.2 := fun hmem => h3 (hp ▸ List.mem_append_right _ hmem)
  have hv := peel_back [',', 'v'] h4
  generalize peel (beforeSuffix [',', 'v'] p.2) p.2 = v at hv ⊢
  have h5 : '\n' ∉ v.2 := fun hmem => h4 (hv ▸ List.mem_append_left _ hmem)
  have ht := peel_back [',', 't'] h5
  generalize peel (beforeSuffix [',', 't'] v.2) v.2 = t at ht ⊢
  have h6 : '\n' ∉ t.2 := fun hmem => h5 (ht ▸ List.mem_append_left _ hmem)
  have he := peel_back ['#'] h6
  generalize peel (beforeSuffix ['#'] t.2) t.2 = e at he ⊢
  have h7 : '\n' ∉ e.2 := fun hmem => h6 (he ▸ List.mem_append_left _ hmem)
  have hw := peel_back ['~'] h7
  generalize peel (beforeSuffix ['~'] e.2) e.2 = w at hw ⊢
  have hrest : p.2 = w.2 ++ (opt w.1 ['~'] ++ (opt e.1 ['#'] ++ (opt t.1 [',', 't'] ++ opt v.1 [',', 'v']))) := by
    rw [hv, ht, he, hw]
    simp only [List.append_assoc]
  refine ⟨?_, hmagic, fun hdot hpound rest hbody => ?_⟩
  · unfold Decorations.spell
    rw [← hrest, ← hp, ← hd, ← hc]
    exact hm
  · refine hnodot hdot (rest ++ (opt w.1 ['~'] ++ (opt e.1 ['#'] ++ (opt t.1 [',', 't'] ++ opt v.1 [',', 'v'])))) ?_
    dsimp only at hdot hpound hbody
    rw [hd, hp, hrest, hdot, hpound, hbody]
    rfl

/-! ## What becomes of a word under a naming -/

/-- The naming `σ` gives each subword of the lookups `qs` the name it has. -/
def Names (σ : Text → Text) (qs : List Text) : Prop :=
  ∀ k v, Kind.word.rename (asked Kind.word.fixed qs) k = some v → σ k = v

def renameSIMPLEWORD (σ : Text → Text) (word : Text) : Text := join '.' ((split '.' word).map σ)

def renameSuffix (σ : Text → Text) (suffix : Text) : Text :=
  if suffix ∈ UnmappedSuffixes then suffix else renameSIMPLEWORD σ suffix

def renameBody (σ : Text → Text) (body : Text) : Text :=
  match rootSuffix body with
  | some (root, suffix) => renameSIMPLEWORD σ root ++ '.' :: renameSuffix σ suffix
  | none => renameSIMPLEWORD σ body

def renameWORD (σ : Text → Text) (word : Text) : Text :=
  if word ∈ UnmappedWords then word
  else (decorations word).1.paste ((decorations word).1.aword ++ renameBody σ (decorations word).2)

def renamePATH (σ : Text → Text) (path : Text) : Text := join '/' ((split '/' path).map (renameWORD σ))

variable {s : State} {qs : Kind → List Text} {σ : Text → Text} {word : Text} {sure : Prop}

/-- The state holds the naming of the lookups `qs`, and the table of suffixes is loaded. -/
structure Serves (sure : Prop) (s : State) (qs : Kind → List Text) : Prop where
  holds : Holds sure s qs
  suffixes : s.unmappedSuffix = fun k => if k ∈ UnmappedSuffixes then some k else none

theorem Serves.mono {sure' : Prop} (h : Serves sure s qs) (hsure : sure' → sure) : Serves sure' s qs := ⟨h.holds.mono hsure, h.suffixes⟩

theorem Names.earlier {qs more : List Text} (h : Names σ (qs ++ more)) : Names σ qs := by
  intro k v hk
  refine h k v ?_
  rw [asked_append]
  exact rename_foldl_of_some more hk

/-- More lookups were made, and under any naming that agrees with all of them the text is that of `f`. -/
def Renames (sure : Prop) (qs : Kind → List Text) (r : State × Text) (f : (Text → Text) → Text) : Prop :=
  ∃ qs', Serves sure r.1 qs' ∧ (∃ more, qs' .word = qs .word ++ more) ∧ ∀ σ, Names σ (qs' .word) → r.2 = f σ

theorem anonymizeSubword_suffixes (s : State) (key : Text) : (anonymizeSubword s key).1.unmappedSuffix = s.unmappedSuffix := by
  unfold anonymizeSubword
  split
  · rfl
  · rfl

theorem anonymizeParts_suffixes (parts : List Text) (s : State) : (anonymizeParts s parts).1.unmappedSuffix = s.unmappedSuffix := by
  induction parts generalizing s with
  | nil => rfl
  | cons part parts ih => exact (ih _).trans (anonymizeSubword_suffixes s part)

theorem MAXKEY_notMem (sep : Char) (h : ' ' ∉ word) : MAXKEY ∉ split sep word := by
  intro hmem
  exact h (Fields.subset_fields hmem (by decide))

theorem Serves.SIMPLEWORD (h : Serves sure s qs) (hword : ' ' ∉ word) :
    Renames sure qs (anonymizeSIMPLEWORD s word) fun σ => renameSIMPLEWORD σ word := by
  obtain ⟨hm, hnames⟩ := h.holds.parts (MAXKEY_notMem '.' hword)
  refine ⟨_, ⟨hm, (anonymizeParts_suffixes _ s).trans h.suffixes⟩, ⟨split '.' word, by rw [if_pos rfl]⟩, fun σ hσ => ?_⟩
  rw [if_pos rfl] at hσ
  have hparts : List.Forall₂ Eq ((split '.' word).map σ) (anonymizeParts s (split '.' word)).2 :=
    List.forall₂_map_left_iff.mpr (hnames.imp hσ)
  rw [List.forall₂_eq_eq_eq] at hparts
  show join '.' _ = _
  rw [← hparts]
  rfl

theorem Serves.suffix (h : Serves sure s qs) (hword : ' ' ∉ word) :
    Renames sure qs (anonymizeSuffix s word) fun σ => renameSuffix σ word := by
  unfold anonymizeSuffix renameSuffix
  rw [h.suffixes]
  by_cases hw : word ∈ UnmappedSuffixes
  · simp only [if_pos hw]
    exact ⟨qs, h, ⟨[], (List.append_nil _).symm⟩, fun _ _ => rfl⟩
  · simp only [if_neg hw]
    exact h.SIMPLEWORD hword

theorem rootSuffix_subset {t root suffix : Text} (h : rootSuffix t = some (root, suffix)) : root ⊆ t ∧ suffix ⊆ t := by
  unfold rootSuffix at h
  simp only at h
  split at h
  · cases h
    exact ⟨fun c hc => (List.rdropWhile_prefix _ _).subset (List.dropLast_subset _ hc), (List.rtakeWhile_suffix _ _).subset⟩
  · cases h

theorem Spelled.body_subset {d : Decorations} {body : Text} (h : Spelled word d body) : body ⊆ word := by
  intro c hc
  rw [h.spell]
  unfold Decorations.spell
  simp only [List.mem_append]
  exact Or.inr (Or.inr (Or.inr (Or.inr (Or.inl hc))))

/-- A token of a line: no blank and no line break in it. -/
def Field (t : Text) : Prop := ' ' ∉ t ∧ '\n' ∉ t

instance (t : Text) : Decidable (Field t) := inferInstanceAs (Decidable (_ ∧ _))

theorem Serves.WORD (h : Serves sure s qs) (hword : Field word) : Renames sure qs (anonymizeWORD s word) fun σ => renameWORD σ word := by
  have hw : s.unmappedWords word = if word ∈ UnmappedWords then some word else none := by
    rw [h.holds.words]
    rfl
  unfold anonymizeWORD renameWORD
  rw [hw]
  by_cases hun : word ∈ UnmappedWords
  · simp only [if_pos hun]
    exact ⟨qs, h, ⟨[], (List.append_nil _).symm⟩, fun _ _ => rfl⟩
  simp only [if_neg hun]
  have hspell := decorations_spell hword.2
  generalize decorations word = db at hspell ⊢
  obtain ⟨d, body⟩ := db
  have hbody : ' ' ∉ body := fun hmem => hword.1 (hspell.body_subset hmem)
  simp only
  unfold renameBody
  cases hrs : rootSuffix body with
  | none =>
    obtain ⟨qs', h', hmore, hname⟩ := h.SIMPLEWORD hbody
    refine ⟨qs', h', hmore, fun σ hσ => ?_⟩
    simp only
    rw [hname σ hσ]
  | some rs =>
    obtain ⟨root, suffix⟩ := rs
    obtain ⟨hroot, hsuffix⟩ := rootSuffix_subset hrs
    obtain ⟨qs₁, h₁, ⟨more₁, hmore₁⟩, hname₁⟩ := h.SIMPLEWORD fun hmem => hbody (hroot hmem)
    obtain ⟨qs₂, h₂, ⟨more₂, hmore₂⟩, hname₂⟩ := h₁.suffix fun hmem => hbody (hsuffix hmem)
    refine ⟨qs₂, h₂, ⟨more₁ ++ more₂, by rw [hmore₂, hmore₁, List.append_assoc]⟩, fun σ hσ => ?_⟩
    simp only
    rw [hname₂ σ hσ]
    rw [hmore₂] at hσ
    rw [hname₁ σ hσ.earlier]

theorem Serves.components (components : List Text) (h : Serves sure s qs) (hcs : ∀ c ∈ components, Field c) :
    ∃ qs', Serves sure (anonymizeComponents s components).1 qs' ∧ (∃ more, qs' .word = qs .word ++ more) ∧
      ∀ σ, Names σ (qs' .word) → (anonymizeComponents s components).2 = components.map (renameWORD σ) := by
  induction components generalizing s qs with
  | nil => exact ⟨qs, h, ⟨[], (List.append_nil _).symm⟩, fun _ _ => rfl⟩
  | cons c components ih =>
    rw [List.forall_mem_cons] at hcs
    obtain ⟨qs₁, h₁, ⟨more₁, hmore₁⟩, hname₁⟩ := h.WORD hcs.1
    obtain ⟨qs₂, h₂, ⟨more₂, hmore₂⟩, hname₂⟩ := ih h₁ hcs.2
    refine ⟨qs₂, h₂, ⟨more₁ ++ more₂, by rw [hmore₂, hmore₁, List.append_assoc]⟩, fun σ hσ => ?_⟩
    show (anonymizeWORD s c).2 :: (anonymizeComponents (anonymizeWORD s c).1 components).2 = _
    rw [hname₂ σ hσ]
    rw [hmore₂] at hσ
    rw [hname₁ σ hσ.earlier]
    rfl

theorem anonymizePATH_spec {path : Text} (h : Serves sure s qs) (hpath : Field path) :
    Renames sure qs (anonymizePATH s path) fun σ => renamePATH σ path := by
  obtain ⟨qs', h', hmore, hnames⟩ := Serves.components (split '/' path) h fun c hc =>
    ⟨fun hmem => hpath.1 (Fields.subset_fields hc hmem), fun hmem => hpath.2 (Fields.subset_fields hc hmem)⟩
  refine ⟨qs', h', hmore, fun σ hσ => ?_⟩
  show join '/' _ = _
  rw [hnames σ hσ]
  rfl

end Nfsdump.Anonymize
