/-
  Nfsdump.Anonymize.Pasted — the pieces of an anonymized word are told from what they are
  pasted together to (`paste_cases`): the marks at the end from the right, the marks in
  front and the prefix from the left, each since no name could stand in its place. A `#` in
  front and one at the end are the same where nothing is between them.
-/

import Nfsdump.Anonymize.Names

namespace Nfsdump.Anonymize

/-! ## Reading the decorations back -/

theorem opt_append_cases {c : Char} {b b' : Bool} {R R' : Text} (h : opt b [c] ++ R = opt b' [c] ++ R') :
    (b = b' ∧ R = R') ∨ (b = true ∧ b' = false ∧ R' = c :: R) ∨ (b = false ∧ b' = true ∧ R = c :: R') := by
  cases b with
  | false =>
    cases b' with
    | false => exact Or.inl ⟨rfl, h⟩
    | true => exact Or.inr (Or.inr ⟨rfl, rfl, h⟩)
  | true =>
    cases b' with
    | false => exact Or.inr (Or.inl ⟨rfl, rfl, h.symm⟩)
    | true => exact Or.inl ⟨rfl, (List.cons_eq_cons.mp h).2⟩

theorem append_opt_cases {z : Text} {b b' : Bool} {M M' : Text} (h : M ++ opt b z = M' ++ opt b' z) :
    (b = b' ∧ M = M') ∨ (b = true ∧ b' = false ∧ M' = M ++ z) ∨ (b = false ∧ b' = true ∧ M = M' ++ z) := by
  cases b with
  | false =>
    rw [show opt false z = [] from rfl, List.append_nil] at h
    cases b' with
    | false => exact Or.inl ⟨rfl, by rw [h]; exact List.append_nil M'⟩
    | true => exact Or.inr (Or.inr ⟨rfl, rfl, h⟩)
  | true =>
    cases b' with
    | false => exact Or.inr (Or.inl ⟨rfl, rfl, by rw [show opt false z = [] from rfl, List.append_nil] at h; exact h.symm⟩)
    | true => exact Or.inl ⟨rfl, List.append_cancel_right h⟩

theorem takeWhile_name {u v : Text} (hu : '.' ∉ u) (hv : v = [] ∨ ∃ q, v = '.' :: q) : (u ++ v).takeWhile (· ≠ '.') = u := by
  have hall : ∀ c ∈ u, decide (c ≠ '.') = true := fun c hc => by
    rw [decide_eq_true_eq]
    rintro rfl
    exact hu hc
  rw [List.takeWhile_append_of_pos hall]
  rcases hv with rfl | ⟨q, rfl⟩
  · exact List.append_nil u
  · rw [List.takeWhile_cons_of_neg (by simp), List.append_nil]

/-- The first name of a body is none of the prefixes. -/
theorem Readable.no_magic {B x r : Text} (hB : Readable B) (hx : '.' ∉ x) (hno : x ∈ foreign.tail) : B ≠ x ++ '.' :: r := by
  intro he
  obtain ⟨name, rest, hname, hlike, hdot, hrest⟩ := hB.head
  have hsame : x = name := by
    rw [← takeWhile_name hx (Or.inr ⟨r, rfl⟩), ← he, hname, takeWhile_name hdot hrest]
  rw [hsame] at hno
  rcases hlike with rfl | hlike
  · exact absurd hno (by decide)
  · exact foreign_not_nameish name (List.mem_of_mem_tail hno) hlike

theorem Decorations.aword_mem {d : Decorations} (hd : d.magic ∈ [[], saves, cache, pico]) :
    d.magic = [] ∧ d.aword = [] ∨ d.magic = saves ∧ d.aword = saves ++ ['.'] ∨ d.magic = cache ∧ d.aword = cache ++ ['.'] ∨
      d.magic = pico ∧ d.aword = pico ++ ['.'] := by
  unfold Decorations.aword
  simp only [List.mem_cons, List.not_mem_nil, or_false] at hd
  rcases hd with hd | hd | hd | hd
  · exact Or.inl ⟨hd, if_pos hd⟩
  · exact Or.inr (Or.inl ⟨hd, by rw [hd]; exact if_neg (by decide)⟩)
  · exact Or.inr (Or.inr (Or.inl ⟨hd, by rw [hd]; exact if_neg (by decide)⟩))
  · exact Or.inr (Or.inr (Or.inr ⟨hd, by rw [hd]; exact if_neg (by decide)⟩))

/-- The prefix is told from the start of a body. -/
theorem aword_injective {d d' : Decorations} {B B' : Text} (hd : d.magic ∈ [[], saves, cache, pico])
    (hd' : d'.magic ∈ [[], saves, cache, pico]) (hB : Readable B) (hB' : Readable B') (h : d.aword ++ B = d'.aword ++ B') :
    d.magic = d'.magic ∧ B = B' := by
  have bare : ∀ {B B' : Text}, Readable B → ∀ x ∈ [saves, cache, pico], B ≠ x ++ ['.'] ++ B' := by
    intro B B' hB x hx he
    rw [List.append_assoc] at he
    simp only [List.mem_cons, List.not_mem_nil, or_false] at hx
    rcases hx with rfl | rfl | rfl
    · exact hB.dotted _ he (by simp)
    · exact hB.no_magic (by decide) (by decide) he
    · exact hB.plain '#' (he ▸ List.mem_cons_self) (by decide)
  rcases d.aword_mem hd with ⟨hm, ha⟩ | ⟨hm, ha⟩ | ⟨hm, ha⟩ | ⟨hm, ha⟩
  · rcases d'.aword_mem hd' with ⟨hm', ha'⟩ | ⟨hm', ha'⟩ | ⟨hm', ha'⟩ | ⟨hm', ha'⟩
    · rw [ha, ha'] at h
      exact ⟨hm.trans hm'.symm, h⟩
    · rw [ha, ha'] at h
      exact absurd h (bare hB saves (by decide))
    · rw [ha, ha'] at h
      exact absurd h (bare hB cache (by decide))
    · rw [ha, ha'] at h
      exact absurd h (bare hB pico (by decide))
  all_goals
    rcases d'.aword_mem hd' with ⟨hm', ha'⟩ | ⟨hm', ha'⟩ | ⟨hm', ha'⟩ | ⟨hm', ha'⟩
    · rw [ha, ha'] at h
      exact absurd h.symm (bare hB' _ (by decide))
    all_goals
      rw [ha, ha'] at h
      first
        | exact ⟨hm.trans hm'.symm, List.append_cancel_left h⟩
        | exact absurd h (by simp [saves, cache, pico])

/-- A word on the way: its decorations, and the name of its body. -/
structure Piece (d : Decorations) (B : Text) : Prop where
  magic : d.magic ∈ [[], saves, cache, pico]
  readable : Readable B
  undotted : d.has_dot = false → d.has_spound = false → ∀ r, B ≠ '.' :: r

variable {d d' : Decorations} {B B' : Text}

theorem aword_notMem_comma (hp : Piece d B) : ',' ∉ d.aword ++ B := by
  intro hmem
  rcases List.mem_append.mp hmem with hmem | hmem
  · rcases d.aword_mem hp.magic with ⟨-, ha⟩ | ⟨-, ha⟩ | ⟨-, ha⟩ | ⟨-, ha⟩
    all_goals
      rw [ha] at hmem
      exact absurd hmem (by decide)
  · exact hp.readable.plain ',' hmem (by decide)

theorem mem_opt {c : Char} {b : Bool} {z : Text} (h : c ∈ opt b z) : c ∈ z := by
  cases b with
  | false => exact absurd h List.not_mem_nil
  | true => exact h

/-- A `#` in front is told from a prefix. -/
theorem spound_injective (hp : Piece d B) (hp' : Piece d' B')
    (h : opt d.has_spound ['#'] ++ (d.aword ++ B) = opt d'.has_spound ['#'] ++ (d'.aword ++ B')) :
    d.has_spound = d'.has_spound ∧ d.magic = d'.magic ∧ B = B' := by
  have other : ∀ {d d' : Decorations} {B B' : Text}, Piece d B → Piece d' B' → d'.aword ++ B' ≠ '#' :: (d.aword ++ B) := by
    intro d d' B B' hp hp' he
    rcases d'.aword_mem hp'.magic with ⟨-, ha'⟩ | ⟨-, ha'⟩ | ⟨-, ha'⟩ | ⟨-, ha'⟩
    · rw [ha', List.nil_append] at he
      exact hp'.readable.plain '#' (he ▸ List.mem_cons_self) (by decide)
    · rw [ha'] at he
      exact absurd (List.cons_eq_cons.mp he).1 (by decide)
    · rw [ha'] at he
      exact absurd (List.cons_eq_cons.mp he).1 (by decide)
    · -- `#pico.` against `#` and a body that begins with `pico.`
      rw [ha'] at he
      have htail : d.aword ++ B = ['p', 'i', 'c', 'o'] ++ '.' :: B' := (List.cons_eq_cons.mp he).2.symm
      rcases d.aword_mem hp.magic with ⟨-, ha⟩ | ⟨-, ha⟩ | ⟨-, ha⟩ | ⟨-, ha⟩
      · rw [ha, List.nil_append] at htail
        exact hp.readable.no_magic (by decide) (by decide) htail
      all_goals
        rw [ha] at htail
        exact absurd (List.cons_eq_cons.mp htail).1 (by decide)
  rcases opt_append_cases h with ⟨hs, hrest⟩ | ⟨-, -, hrest⟩ | ⟨-, -, hrest⟩
  · exact ⟨hs, aword_injective hp.magic hp'.magic hp.readable hp'.readable hrest⟩
  · exact absurd hrest (other hp hp')
  · exact absurd hrest (other hp' hp)

/-- So is a dot. -/
theorem dot_injective (hp : Piece d B) (hp' : Piece d' B')
    (h : opt d.has_dot ['.'] ++ (opt d.has_spound ['#'] ++ (d.aword ++ B)) =
      opt d'.has_dot ['.'] ++ (opt d'.has_spound ['#'] ++ (d'.aword ++ B'))) :
    d.has_dot = d'.has_dot ∧ d.has_spound = d'.has_spound ∧ d.magic = d'.magic ∧ B = B' := by
  have other : ∀ {d d' : Decorations} {B B' : Text}, Piece d B → Piece d' B' → d'.has_dot = false →
      opt d'.has_spound ['#'] ++ (d'.aword ++ B') ≠ '.' :: (opt d.has_spound ['#'] ++ (d.aword ++ B)) := by
    intro d d' B B' hp hp' hdot' he
    cases hs' : d'.has_spound with
    | true =>
      rw [hs'] at he
      exact absurd (List.cons_eq_cons.mp he).1 (by decide)
    | false =>
      rw [hs', show opt false ['#'] = [] from rfl, List.nil_append] at he
      rcases d'.aword_mem hp'.magic with ⟨-, ha'⟩ | ⟨-, ha'⟩ | ⟨-, ha'⟩ | ⟨-, ha'⟩
      · rw [ha', List.nil_append] at he
        exact hp'.undotted hdot' hs' _ he
      · -- `.saves-.` against `.` and a body that begins with `saves-.`
        rw [ha'] at he
        have htail : opt d.has_spound ['#'] ++ (d.aword ++ B) = ['s', 'a', 'v', 'e', 's', '-'] ++ '.' :: B' :=
          (List.cons_eq_cons.mp he).2.symm
        cases hs : d.has_spound with
        | true =>
          rw [hs] at htail
          exact absurd (List.cons_eq_cons.mp htail).1 (by decide)
        | false =>
          rw [hs, show opt false ['#'] = [] from rfl, List.nil_append] at htail
          rcases d.aword_mem hp.magic with ⟨-, ha⟩ | ⟨-, ha⟩ | ⟨-, ha⟩ | ⟨-, ha⟩
          · rw [ha, List.nil_append] at htail
            exact hp.readable.no_magic (by decide) (by decide) htail
          all_goals
            rw [ha] at htail
            exact absurd (List.cons_eq_cons.mp htail).1 (by decide)
      · rw [ha'] at he
        exact absurd (List.cons_eq_cons.mp he).1 (by decide)
      · rw [ha'] at he
        exact absurd (List.cons_eq_cons.mp he).1 (by decide)
  rcases opt_append_cases h with ⟨hs, hrest⟩ | ⟨-, hno, hrest⟩ | ⟨hno, -, hrest⟩
  · exact ⟨hs, spound_injective hp hp' hrest⟩
  · exact absurd hrest (other hp hp' hno)
  · exact absurd hrest (other hp' hp hno)

theorem comma_injective (hp : Piece d B) (hp' : Piece d' B')
    (h : opt d.has_bcomma [','] ++ (opt d.has_dot ['.'] ++ (opt d.has_spound ['#'] ++ (d.aword ++ B))) =
      opt d'.has_bcomma [','] ++ (opt d'.has_dot ['.'] ++ (opt d'.has_spound ['#'] ++ (d'.aword ++ B')))) :
    d.has_bcomma = d'.has_bcomma ∧ d.has_dot = d'.has_dot ∧ d.has_spound = d'.has_spound ∧ d.magic = d'.magic ∧ B = B' := by
  have nocomma : ∀ {d : Decorations} {B : Text}, Piece d B →
      ',' ∉ opt d.has_dot ['.'] ++ (opt d.has_spound ['#'] ++ (d.aword ++ B)) := by
    intro d B hp hmem
    rcases List.mem_append.mp hmem with hmem | hmem
    · exact absurd (mem_opt hmem) (by decide)
    · rcases List.mem_append.mp hmem with hmem | hmem
      · exact absurd (mem_opt hmem) (by decide)
      · exact aword_notMem_comma hp hmem
  rcases opt_append_cases h with ⟨hs, hrest⟩ | ⟨-, -, hrest⟩ | ⟨-, -, hrest⟩
  · exact ⟨hs, dot_injective hp hp' hrest⟩
  · exact absurd (hrest ▸ List.mem_cons_self) (nocomma hp')
  · exact absurd (hrest ▸ List.mem_cons_self) (nocomma hp)

/-- Everything up to the marks at the end. -/
def front (d : Decorations) (B : Text) : Text :=
  opt d.has_bcomma [','] ++ (opt d.has_dot ['.'] ++ (opt d.has_spound ['#'] ++ (d.aword ++ B)))

theorem paste_eq (d : Decorations) (B : Text) : d.paste (d.aword ++ B) =
    front d B ++ opt d.has_v [',', 'v'] ++ opt d.has_t [',', 't'] ++ opt d.has_epound ['#'] ++ opt d.has_twiddle ['~'] := by
  unfold Decorations.paste front
  simp only [List.append_assoc]

theorem front_append (d : Decorations) (B C : Text) : front d (B ++ C) = front d B ++ C := by
  unfold front
  simp only [List.append_assoc]

/-- With no body in between, the last thing in front is a mark or the dot of a prefix. -/
theorem front_nil_last (hd : d.magic ∈ [[], saves, cache, pico]) {P : Text} {x : Char} (h : front d [] = P ++ [x]) :
    x = '.' ∨ d.aword = [] ∧ (x = ',' ∨ x = '#' ∧ d.has_spound = true) := by
  have hlast : (front d []).getLast? = some x := by rw [h]; exact List.getLast?_concat
  unfold front at hlast
  rcases d.aword_mem hd with ⟨-, ha⟩ | ⟨-, ha⟩ | ⟨-, ha⟩ | ⟨-, ha⟩
  · rw [ha] at hlast ⊢
    cases hs : d.has_spound with
    | true =>
      rw [hs] at hlast
      simp [opt] at hlast
      exact Or.inr ⟨rfl, Or.inr ⟨hlast.symm, rfl⟩⟩
    | false =>
      rw [hs] at hlast
      cases hdot : d.has_dot with
      | true =>
        rw [hdot] at hlast
        simp [opt] at hlast
        exact Or.inl hlast.symm
      | false =>
        rw [hdot] at hlast
        cases hc : d.has_bcomma with
        | true =>
          rw [hc] at hlast
          simp [opt] at hlast
          exact Or.inr ⟨rfl, Or.inl hlast.symm⟩
        | false =>
          rw [hc] at hlast
          simp [opt] at hlast
  all_goals
    refine Or.inl ?_
    rw [ha, List.append_nil] at hlast
    simp only [← List.append_assoc, List.getLast?_concat, Option.some_inj] at hlast
    exact hlast.symm

/-- `,v` and `,t` are told from a body's end. -/
theorem front_no_end (hp : Piece d B) {P : Text} {x : Char} (hx : x ∈ ['v', 't']) : front d B ≠ P ++ [',', x] := by
  intro h
  have hmark : x ≠ '.' ∧ x ≠ ',' ∧ x ≠ '#' ∧ [x] ∈ foreign :=
    (by decide : ∀ x ∈ ['v', 't'], x ≠ '.' ∧ x ≠ ',' ∧ x ≠ '#' ∧ [x] ∈ foreign) x hx
  have hend : P ++ [',', x] = P ++ [','] ++ [x] := by rw [List.append_assoc]; rfl
  rw [hend] at h
  rcases List.eq_nil_or_concat' B with rfl | ⟨B₀, y, rfl⟩
  · rcases front_nil_last hp.magic h with hx | ⟨-, hx | ⟨hx, -⟩⟩
    · exact hmark.1 hx
    · exact hmark.2.1 hx
    · exact hmark.2.2.1 hx
  · rw [front_append] at h
    obtain ⟨hfront, hy⟩ := List.append_inj' h rfl
    rw [List.cons_eq_cons] at hy
    rcases List.eq_nil_or_concat' B₀ with rfl | ⟨B₁, z, rfl⟩
    · obtain ⟨name, rest, heq, hlike, -, hrest⟩ := hp.readable.head
      rw [hy.1, List.nil_append] at heq
      rcases hrest with rfl | ⟨r, rfl⟩
      · rw [List.append_nil] at heq
        rcases hlike with hnil | hlike
        · rw [hnil] at heq
          cases heq
        · exact foreign_not_nameish [x] hmark.2.2.2 (heq ▸ hlike)
      · have hmem : '.' ∈ [x] := heq ▸ List.mem_append_right name List.mem_cons_self
        exact hmark.1 (List.mem_singleton.mp hmem).symm
    · rw [front_append] at hfront
      obtain ⟨-, hz⟩ := List.append_inj' hfront rfl
      rw [List.cons_eq_cons] at hz
      refine hp.readable.plain ',' ?_ (by decide)
      rw [← hz.1]
      exact List.mem_append_left _ (List.mem_append_right _ List.mem_cons_self)

/-- `~#` around nothing, and what is written the same. -/
structure Swapped (d : Decorations) (B : Text) (d' : Decorations) (B' : Text) : Prop where
  empty : B = [] ∧ B' = []
  bare : d.magic = [] ∧ d.has_v = false ∧ d.has_t = false
  behind : d.has_spound = false ∧ d.has_epound = true
  before : d' = { d with has_spound := true, has_epound := false }

/-- A `#` at the end is one in front only where nothing else is. -/
theorem epound_swapped (hp : Piece d B) (hp' : Piece d' B') (he : d.has_epound = true) (he' : d'.has_epound = false)
    (htw : d.has_twiddle = d'.has_twiddle)
    (h : front d' B' ++ opt d'.has_v [',', 'v'] ++ opt d'.has_t [',', 't'] =
      front d B ++ opt d.has_v [',', 'v'] ++ opt d.has_t [',', 't'] ++ ['#']) : Swapped d B d' B' := by
  have ht' : d'.has_t = false := by
    cases ht' : d'.has_t with
    | false => rfl
    | true =>
      rw [ht', show opt true [',', 't'] = [','] ++ ['t'] from rfl, ← List.append_assoc] at h
      exact absurd (List.cons_eq_cons.mp (List.append_inj' h rfl).2).1 (by decide)
  rw [ht', show opt false [',', 't'] = [] from rfl, List.append_nil] at h
  have hv' : d'.has_v = false := by
    cases hv' : d'.has_v with
    | false => rfl
    | true =>
      rw [hv', show opt true [',', 'v'] = [','] ++ ['v'] from rfl, ← List.append_assoc] at h
      exact absurd (List.cons_eq_cons.mp (List.append_inj' h rfl).2).1 (by decide)
  rw [hv', show opt false [',', 'v'] = [] from rfl, List.append_nil] at h
  have hB' : B' = [] := by
    rcases List.eq_nil_or_concat' B' with hB' | ⟨B₀, y, rfl⟩
    · exact hB'
    · rw [front_append] at h
      obtain ⟨-, hy⟩ := List.append_inj' h rfl
      rw [List.cons_eq_cons] at hy
      refine absurd ?_ (hp'.readable.plain y (List.mem_append_right _ List.mem_cons_self))
      rw [hy.1]
      decide
  subst hB'
  obtain ⟨ha', hs'⟩ : d'.aword = [] ∧ d'.has_spound = true := by
    rcases front_nil_last hp'.magic h with hx | ⟨ha, hx | ⟨-, hs⟩⟩
    · exact absurd hx (by decide)
    · exact absurd hx (by decide)
    · exact ⟨ha, hs⟩
  have hmagic' : d'.magic = [] := by
    rcases d'.aword_mem hp'.magic with ⟨hm, -⟩ | ⟨-, ha⟩ | ⟨-, ha⟩ | ⟨-, ha⟩
    · exact hm
    all_goals
      rw [ha] at ha'
      exact absurd ha' (by decide)
  -- so the other one is the marks in front, and nothing more
  have hrest : front d B ++ opt d.has_v [',', 'v'] ++ opt d.has_t [',', 't'] = opt d'.has_bcomma [','] ++ opt d'.has_dot ['.'] := by
    have hfront : front d' [] = (opt d'.has_bcomma [','] ++ opt d'.has_dot ['.']) ++ ['#'] := by
      unfold front
      rw [ha', hs']
      simp [opt]
    exact List.append_cancel_right (h.symm.trans hfront)
  have hmem : ∀ c ∈ front d B ++ opt d.has_v [',', 'v'] ++ opt d.has_t [',', 't'], c = ',' ∨ c = '.' := by
    intro c hc
    rw [hrest] at hc
    rcases List.mem_append.mp hc with hc | hc
    · exact Or.inl (List.mem_singleton.mp (mem_opt hc))
    · exact Or.inr (List.mem_singleton.mp (mem_opt hc))
  have hs : d.has_spound = false := by
    cases hs : d.has_spound with
    | false => rfl
    | true => exact absurd (hmem '#' (by unfold front; rw [hs]; simp [opt])) (by decide)
  have hv : d.has_v = false := by
    cases hv : d.has_v with
    | false => rfl
    | true => exact absurd (hmem 'v' (by rw [hv]; simp [opt])) (by decide)
  have ht : d.has_t = false := by
    cases ht : d.has_t with
    | false => rfl
    | true => exact absurd (hmem 't' (by rw [ht]; simp [opt])) (by decide)
  obtain ⟨hmagic, ha⟩ : d.magic = [] ∧ d.aword = [] := by
    rcases d.aword_mem hp.magic with hm | ⟨-, ha⟩ | ⟨-, ha⟩ | ⟨-, ha⟩
    · exact hm
    · exact absurd (hmem 's' (by unfold front; rw [ha]; simp [saves])) (by decide)
    · exact absurd (hmem 'c' (by unfold front; rw [ha]; simp [cache])) (by decide)
    · exact absurd (hmem 'p' (by unfold front; rw [ha]; simp [pico])) (by decide)
  unfold front at hrest
  rw [hs, hv, ht, ha] at hrest
  simp only [show ∀ z, opt false z = [] from fun _ => rfl, List.append_nil, List.nil_append] at hrest
  have hdot : ∀ {b : Bool}, ',' ∉ opt b ['.'] := fun hc => absurd (mem_opt hc) (by decide)
  have hcomma : ',' ∉ B := fun hc => hp.readable.plain ',' hc (by decide)
  rcases opt_append_cases hrest with ⟨hc, hrest⟩ | ⟨-, -, hrest⟩ | ⟨-, -, hrest⟩
  · rw [← List.append_nil (opt d'.has_dot ['.'])] at hrest
    rcases opt_append_cases hrest with ⟨hd, hB⟩ | ⟨-, -, hB⟩ | ⟨hno, -, hB⟩
    · refine ⟨⟨hB, rfl⟩, ⟨hmagic, hv, ht⟩, ⟨hs, he⟩, ?_⟩
      rcases d with ⟨magic, c, dot, s, v, t, e, tw⟩
      rcases d' with ⟨magic', c', dot', s', v', t', e', tw'⟩
      simp only at *
      subst hc hd hv ht hv' ht' hs' he' htw hmagic hmagic'
      rfl
    · cases hB
    · exact absurd hB (hp.undotted hno hs _)
  · exact absurd (hrest ▸ List.mem_cons_self) hdot
  · have hmem' : ',' ∈ opt d.has_dot ['.'] ++ B := hrest ▸ List.mem_cons_self
    rcases List.mem_append.mp hmem' with hc | hc
    · exact absurd hc hdot
    · exact absurd hc hcomma

theorem front_notMem_twiddle (hp : Piece d B) : '~' ∉ front d B := by
  intro hmem
  unfold front at hmem
  simp only [List.mem_append] at hmem
  rcases hmem with hmem | hmem | hmem | hmem | hmem
  · exact absurd (mem_opt hmem) (by decide)
  · exact absurd (mem_opt hmem) (by decide)
  · exact absurd (mem_opt hmem) (by decide)
  · rcases d.aword_mem hp.magic with ⟨-, ha⟩ | ⟨-, ha⟩ | ⟨-, ha⟩ | ⟨-, ha⟩
    all_goals
      rw [ha] at hmem
      exact absurd hmem (by decide)
  · exact hp.readable.plain '~' hmem (by decide)

theorem twiddle_injective (hp : Piece d B) (hp' : Piece d' B') (h : d.paste (d.aword ++ B) = d'.paste (d'.aword ++ B')) :
    d.has_twiddle = d'.has_twiddle ∧
      front d B ++ opt d.has_v [',', 'v'] ++ opt d.has_t [',', 't'] ++ opt d.has_epound ['#'] =
        front d' B' ++ opt d'.has_v [',', 'v'] ++ opt d'.has_t [',', 't'] ++ opt d'.has_epound ['#'] := by
  have hno : ∀ {d : Decorations} {B : Text}, Piece d B →
      '~' ∉ front d B ++ opt d.has_v [',', 'v'] ++ opt d.has_t [',', 't'] ++ opt d.has_epound ['#'] := by
    intro d B hp hmem
    simp only [List.mem_append] at hmem
    rcases hmem with ((hmem | hmem) | hmem) | hmem
    · exact front_notMem_twiddle hp hmem
    all_goals exact absurd (mem_opt hmem) (by decide)
  rw [paste_eq, paste_eq] at h
  rcases append_opt_cases h with h | ⟨-, -, h⟩ | ⟨-, -, h⟩
  · exact h
  · exact absurd (h ▸ List.mem_append_right _ List.mem_cons_self) (hno hp')
  · exact absurd (h ▸ List.mem_append_right _ List.mem_cons_self) (hno hp)

theorem tail_injective (hp : Piece d B) (hp' : Piece d' B')
    (h : front d B ++ opt d.has_v [',', 'v'] ++ opt d.has_t [',', 't'] =
      front d' B' ++ opt d'.has_v [',', 'v'] ++ opt d'.has_t [',', 't']) :
    d.has_v = d'.has_v ∧ d.has_t = d'.has_t ∧ front d B = front d' B' := by
  have nov : ∀ {d d' : Decorations} {B B' : Text}, Piece d' B' → front d' B' ≠ front d B ++ [',', 'v'] :=
    fun hp' => front_no_end hp' (by decide)
  have noT : ∀ {d' : Decorations} {B' P : Text}, Piece d' B' → front d' B' ++ opt d'.has_v [',', 'v'] ≠ P ++ [',', 't'] := by
    intro d' B' P hp' h
    cases hv : d'.has_v with
    | false =>
      rw [hv, show opt false [',', 'v'] = [] from rfl, List.append_nil] at h
      exact front_no_end hp' (by decide) h
    | true =>
      rw [hv] at h
      have hlast := (List.append_inj' h rfl).2
      exact absurd hlast (by decide)
  rcases append_opt_cases h with ⟨ht, h⟩ | ⟨-, -, h⟩ | ⟨-, -, h⟩
  · rcases append_opt_cases h with ⟨hv, h⟩ | ⟨-, -, h⟩ | ⟨-, -, h⟩
    · exact ⟨hv, ht, h⟩
    · exact absurd h (nov hp')
    · exact absurd h (nov hp)
  · exact absurd h (noT hp')
  · exact absurd h (noT hp)

/-- From what is pasted together the pieces can be told, but for `~#` around nothing. -/
theorem paste_cases (hp : Piece d B) (hp' : Piece d' B') (h : d.paste (d.aword ++ B) = d'.paste (d'.aword ++ B')) :
    (d = d' ∧ B = B') ∨ Swapped d B d' B' ∨ Swapped d' B' d B := by
  obtain ⟨htw, h⟩ := twiddle_injective hp hp' h
  rcases append_opt_cases h with ⟨he, h⟩ | ⟨he, he', h⟩ | ⟨he, he', h⟩
  · obtain ⟨hv, ht, h⟩ := tail_injective hp hp' h
    obtain ⟨hc, hd, hs, hm, hB⟩ := comma_injective hp hp' h
    refine Or.inl ⟨?_, hB⟩
    rcases d with ⟨magic, c, dot, s, v, t, e, tw⟩
    rcases d' with ⟨magic', c', dot', s', v', t', e', tw'⟩
    simp only at hm hc hd hs hv ht he htw
    rw [hm, hc, hd, hs, hv, ht, he, htw]
  · exact Or.inr (Or.inl (epound_swapped hp hp' he he' htw h))
  · exact Or.inr (Or.inr (epound_swapped hp' hp he' he htw.symm h))

end Nfsdump.Anonymize
