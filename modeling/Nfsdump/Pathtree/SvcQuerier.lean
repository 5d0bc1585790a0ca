/-
  Nfsdump.Pathtree.SvcQuerier — asking a fullpath service for the paths of handles
  (pathtree/fullpath.func.js, `svcQuerier`).

  A lookup appends its callback to those pending for the handle and writes a line; a row
  hands its path to all callbacks pending for its handle. Callbacks may look up more. The
  server answers each line in turn with a row for that handle; what else is in the row is
  up to it.

  Proved (`answered_once`): for handles that are no property of every object, whatever the
  order of lookups and rows and whatever the callbacks look up, no callback is invoked
  twice, each only with the path from a row for its own handle, and with no request
  outstanding every callback has been invoked and none is pending. `pending` starts as an
  object with the properties every object has, and a lookup of one of those throws:
  `inherited_handle_unanswered`.
-/

import Nfsdump.Pathtree.Parser

namespace Nfsdump.Pathtree

/-! ## The querier -/

/-- A row of the service; a column that is not there is undefined. -/
structure PathRow where
  fh : Cell
  top : Option Cell
  path : Option Cell
  deriving DecidableEq, Repr

structure Querier where
  /-- `fh=>[cb,...]`, callbacks by number. -/
  pending : Cell → Option (List Nat)
  /-- Lines written whose rows have not come back. -/
  sock : Cell
  /-- The rows that came back. -/
  rows : List PathRow
  /-- The handles looked up; each lookup has the callback of its place here. -/
  calls : List Cell
  /-- The callbacks invoked, each with its argument; `none` is `false`. -/
  ran : List (Nat × Option Cell)

def Querier.init : Querier := ⟨fun _ => none, [], [], [], []⟩

/-- The properties of `Object.prototype`. -/
def inherited : List Cell :=
  ["constructor", "__defineGetter__", "__defineSetter__", "hasOwnProperty", "__lookupGetter__", "__lookupSetter__",
    "isPrototypeOf", "propertyIsEnumerable", "toString", "valueOf", "__proto__", "toLocaleString"].map String.toList

/-- What `pending[fh]` can be. -/
inductive Property where
  | undefined
  | callbacks (cbs : List Nat)
  | inherited

def Querier.get (q : Querier) (fh : Cell) : Property :=
  match q.pending fh with
  | some cbs => .callbacks cbs
  | none => if fh ∈ Pathtree.inherited then .inherited else .undefined

def Querier.set (q : Querier) (fh : Cell) (cbs : Option (List Nat)) : Querier :=
  { q with pending := Function.update q.pending fh cbs }

def Querier.write (q : Querier) (line : Cell) : Querier := { q with sock := q.sock ++ line }

/-- The flag is false if it throws: what is inherited has no `push`. -/
def Querier.lookup (q : Querier) (fh : Cell) : Querier × Bool :=
  let cb := q.calls.length
  let q := { q with calls := q.calls ++ [fh] }
  match q.get fh with
  | .undefined => ((q.set fh (some [cb])).write (fh ++ ['\n']), true)
  | .callbacks cbs => ((q.set fh (some (cbs ++ [cb]))).write (fh ++ ['\n']), true)
  | .inherited => (q, false)

def Querier.lookups (q : Querier) : List Cell → Querier × Bool
  | [] => (q, true)
  | fh :: fhs =>
    let r := q.lookup fh
    if r.2 then r.1.lookups fhs else r

section

variable (unresolvedHandler : PathRow → Option Cell) (react : Nat → Option Cell → List Cell)

/-- The path made of a row; the empty one is as good as none. -/
def PathRow.answer (row : PathRow) : Option Cell :=
  match row.path with
  | none => none
  | some [] => none
  | some path => if row.top = some [] then some path else unresolvedHandler row

/-- `callbacks.forEach`; `react cb path` is what the callback looks up. -/
def Querier.forEach (path : Option Cell) (q : Querier) : List Nat → Querier × Bool
  | [] => (q, true)
  | cb :: cbs =>
    let r := { q with ran := q.ran ++ [(cb, path)] }.lookups (react cb path)
    if r.2 then r.1.forEach path cbs else r

def Querier.processResult (q : Querier) (row : PathRow) : Querier × Bool :=
  match q.get row.fh with
  | .undefined => (q, true)
  | .callbacks cbs => (q.set row.fh none).forEach react (row.answer unresolvedHandler) cbs
  | .inherited => (q, false)

/-- The server's `getline`. -/
def getline (sock : Cell) : Option (Cell × Cell) :=
  if '\n' ∈ sock then some (sock.takeWhile (· ≠ '\n'), (sock.dropWhile (· ≠ '\n')).tail) else none

inductive QuerierEvent where
  | lookup (fh : Cell)
  /-- The server answers the next line, with this in the other columns. -/
  | row (top path : Option Cell)
  deriving DecidableEq, Repr

def Querier.step (q : Querier) : QuerierEvent → Querier
  | .lookup fh => (q.lookup fh).1
  | .row top path =>
    match getline q.sock with
    | none => q
    | some (fh, rest) =>
      let row : PathRow := ⟨fh, top, path⟩
      ({ q with sock := rest, rows := q.rows ++ [row] }.processResult unresolvedHandler react row).1

def Querier.run (es : List QuerierEvent) : Querier := es.foldl (Querier.step unresolvedHandler react) .init

/-- What every query gets. -/
structure Querier.AnsweredOnce (q : Querier) : Prop where
  once : (q.ran.map Prod.fst).Nodup
  own : ∀ p ∈ q.ran, ∃ row ∈ q.rows, q.calls[p.1]? = some row.fh ∧ p.2 = row.answer unresolvedHandler
  all : q.sock = [] → (∀ cb < q.calls.length, cb ∈ q.ran.map Prod.fst) ∧ ∀ fh, q.pending fh = none

end

/-! ## Lines -/

def requests (fhs : List Cell) : Cell := fhs.flatMap (· ++ ['\n'])

theorem requests_concat (fhs : List Cell) (fh : Cell) : requests (fhs ++ [fh]) = requests fhs ++ (fh ++ ['\n']) := by
  simp [requests]

theorem getline_nil : getline (requests []) = none := rfl

theorem getline_cons {fh : Cell} (h : '\n' ∉ fh) (fhs : List Cell) :
    getline (requests (fh :: fhs)) = some (fh, requests fhs) := by
  have hline : requests (fh :: fhs) = fh ++ '\n' :: requests fhs := by simp [requests]
  have hall : ∀ c ∈ fh, decide (c ≠ '\n') = true := by
    intro c hc
    rw [decide_eq_true_iff]
    rintro rfl
    exact h hc
  rw [hline, getline, if_pos (by simp), List.takeWhile_append_of_pos hall, List.dropWhile_append_of_pos hall]
  simp

/-! ## The invariant -/

variable {unresolvedHandler : PathRow → Option Cell} {react : Nat → Option Cell → List Cell}
  {q : Querier} {flight : List Cell} {todo : List Nat} {fh : Cell}

/-- A handle that the querier can serve. -/
structure Plain (fh : Cell) : Prop where
  line : '\n' ∉ fh
  own : fh ∉ inherited

/-- The callbacks of `todo` are about to be invoked, and the handles of `flight` are
    outstanding: every callback was invoked, is about to be, or is pending for a handle outstanding. -/
structure Querier.Inv (unresolvedHandler : PathRow → Option Cell) (q : Querier) (flight : List Cell) (todo : List Nat) : Prop where
  sock : q.sock = requests flight
  plain : ∀ fh ∈ flight, Plain fh
  each : ∀ cb < q.calls.length, cb ∈ q.ran.map Prod.fst ++ todo ∨ ∃ fh cbs, q.pending fh = some cbs ∧ cb ∈ cbs
  once : (q.ran.map Prod.fst ++ todo).Nodup
  known : ∀ cb ∈ q.ran.map Prod.fst ++ todo, cb < q.calls.length
  outstanding : ∀ fh cbs, q.pending fh = some cbs → fh ∈ flight
  distinct : ∀ fh cbs, q.pending fh = some cbs → cbs.Nodup
  waiting : ∀ fh cbs, q.pending fh = some cbs → ∀ cb ∈ cbs, q.calls[cb]? = some fh ∧ cb ∉ q.ran.map Prod.fst ++ todo
  own : ∀ p ∈ q.ran, ∃ row ∈ q.rows, q.calls[p.1]? = some row.fh ∧ p.2 = row.answer unresolvedHandler

theorem Querier.Inv.answeredOnce (h : q.Inv unresolvedHandler flight []) : q.AnsweredOnce unresolvedHandler := by
  refine ⟨by simpa using h.once, h.own, fun hsock => ?_⟩
  have hflight : flight = [] := by
    cases flight with
    | nil => rfl
    | cons fh fhs =>
      rw [h.sock] at hsock
      simp [requests] at hsock
  have hpending : ∀ fh, q.pending fh = none := by
    intro fh
    rcases hp : q.pending fh with _ | cbs
    · rfl
    · exact absurd (hflight ▸ h.outstanding fh cbs hp) List.not_mem_nil
  refine ⟨fun cb hcb => ?_, hpending⟩
  rcases h.each cb hcb with hran | ⟨fh, cbs, hp, -⟩
  · rwa [List.append_nil] at hran
  · rw [hpending fh] at hp
    cases hp

theorem inv_init : Querier.init.Inv unresolvedHandler [] [] where
  sock := rfl
  plain := fun _ h => nomatch h
  each := fun _ h => nomatch h
  once := List.nodup_nil
  known := fun _ h => nomatch h
  outstanding := fun _ _ h => nomatch h
  distinct := fun _ _ h => nomatch h
  waiting := fun _ _ h => nomatch h
  own := fun _ h => nomatch h

theorem getElem?_calls_lt {cb : Nat} (h : q.calls[cb]? = some fh) : cb < q.calls.length :=
  (List.getElem?_eq_some_iff.mp h).1

/-- Registering a callback after those pending, none of them if there is no property. -/
theorem Querier.Inv.push (h : q.Inv unresolvedHandler flight todo) (hfh : Plain fh) {cbs : List Nat}
    (hcbs : q.pending fh = some cbs ∨ q.pending fh = none ∧ cbs = []) :
    (({ q with calls := q.calls ++ [fh] }.set fh (some (cbs ++ [q.calls.length]))).write (fh ++ ['\n'])).Inv
      unresolvedHandler (flight ++ [fh]) todo := by
  have hold : ∀ cb ∈ cbs, q.calls[cb]? = some fh ∧ cb ∉ q.ran.map Prod.fst ++ todo := by
    rcases hcbs with hp | ⟨-, rfl⟩
    · exact h.waiting fh cbs hp
    · exact fun cb hcb => nomatch hcb
  have hnew : q.calls.length ∉ q.ran.map Prod.fst ++ todo := fun hmem => Nat.lt_irrefl _ (h.known _ hmem)
  have hcalls : ∀ {cb : Nat} {gh : Cell}, q.calls[cb]? = some gh → (q.calls ++ [fh])[cb]? = some gh := by
    intro cb gh hcb
    rw [List.getElem?_append_left (getElem?_calls_lt hcb), hcb]
  constructor
  · exact (congrArg (· ++ (fh ++ ['\n'])) h.sock).trans (requests_concat flight fh).symm
  · intro gh hgh
    rcases List.mem_append.mp hgh with hgh | hgh
    · exact h.plain gh hgh
    · exact List.mem_singleton.mp hgh ▸ hfh
  · intro cb hcb
    simp only [Querier.write, Querier.set, List.length_append, List.length_singleton] at hcb ⊢
    rcases Nat.lt_succ_iff_lt_or_eq.mp hcb with hlt | rfl
    · rcases h.each cb hlt with hran | ⟨gh, gs, hp, hmem⟩
      · exact Or.inl hran
      · right
        by_cases hgh : gh = fh
        · subst hgh
          refine ⟨gh, _, Function.update_self .., List.mem_append_left _ ?_⟩
          rcases hcbs with hq | ⟨hq, -⟩
          · rw [hp, Option.some_inj] at hq
            exact hq ▸ hmem
          · rw [hp] at hq
            cases hq
        · exact ⟨gh, gs, by rw [Function.update_of_ne hgh, hp], hmem⟩
    · exact Or.inr ⟨fh, _, Function.update_self .., List.mem_append_right _ (List.mem_singleton_self _)⟩
  · exact h.once
  · intro cb hcb
    have := h.known cb hcb
    simp only [Querier.write, Querier.set, List.length_append, List.length_singleton]
    omega
  · intro gh gs hp
    by_cases hgh : gh = fh
    · exact List.mem_append_right _ (List.mem_singleton.mpr hgh)
    · simp only [Querier.write, Querier.set] at hp
      rw [Function.update_of_ne hgh] at hp
      exact List.mem_append_left _ (h.outstanding gh gs hp)
  · intro gh gs hp
    simp only [Querier.write, Querier.set] at hp
    by_cases hgh : gh = fh
    · subst hgh
      rw [Function.update_self, Option.some_inj] at hp
      subst hp
      have hnodup : cbs.Nodup := by
        rcases hcbs with hq | ⟨-, rfl⟩
        · exact h.distinct gh cbs hq
        · exact List.nodup_nil
      rw [List.nodup_append]
      refine ⟨hnodup, List.nodup_singleton _, fun cb hcb cb' hcb' heq => ?_⟩
      rw [List.mem_singleton] at hcb'
      exact Nat.lt_irrefl _ (hcb' ▸ heq ▸ getElem?_calls_lt (hold cb hcb).1)
    · rw [Function.update_of_ne hgh] at hp
      exact h.distinct gh gs hp
  · intro gh gs hp cb hcb
    simp only [Querier.write, Querier.set] at hp ⊢
    by_cases hgh : gh = fh
    · subst hgh
      rw [Function.update_self, Option.some_inj] at hp
      subst hp
      rcases List.mem_append.mp hcb with hcb | hcb
      · exact ⟨hcalls (hold cb hcb).1, (hold cb hcb).2⟩
      · rw [List.mem_singleton.mp hcb]
        exact ⟨List.getElem?_concat_length .., hnew⟩
    · rw [Function.update_of_ne hgh] at hp
      obtain ⟨hc, hno⟩ := h.waiting gh gs hp cb hcb
      exact ⟨hcalls hc, hno⟩
  · intro p hp
    obtain ⟨row, hrow, hc, hans⟩ := h.own p hp
    exact ⟨row, hrow, hcalls hc, hans⟩

/-- Lookups return, and only add to what is outstanding. -/
structure Grows (unresolvedHandler : PathRow → Option Cell) (q : Querier) (r : Querier × Bool) (todo : List Nat) : Prop where
  returns : r.2 = true
  inv : ∃ flight, r.1.Inv unresolvedHandler flight todo
  rows : r.1.rows = q.rows
  calls : ∀ {cb : Nat} {fh : Cell}, q.calls[cb]? = some fh → r.1.calls[cb]? = some fh

theorem Querier.Inv.lookup (h : q.Inv unresolvedHandler flight todo) (hfh : Plain fh) :
    Grows unresolvedHandler q (q.lookup fh) todo := by
  have hcalls : ∀ {cb : Nat} {gh : Cell}, q.calls[cb]? = some gh → (q.calls ++ [fh])[cb]? = some gh := by
    intro cb gh hcb
    rw [List.getElem?_append_left (getElem?_calls_lt hcb), hcb]
  rcases hp : q.pending fh with _ | cbs
  · have hget : { q with calls := q.calls ++ [fh] }.get fh = .undefined := by simp [Querier.get, hp, hfh.own]
    simp only [Querier.lookup, hget]
    exact ⟨rfl, ⟨_, h.push hfh (Or.inr ⟨hp, rfl⟩)⟩, rfl, hcalls⟩
  · have hget : { q with calls := q.calls ++ [fh] }.get fh = .callbacks cbs := by simp [Querier.get, hp]
    simp only [Querier.lookup, hget]
    exact ⟨rfl, ⟨_, h.push hfh (Or.inl hp)⟩, rfl, hcalls⟩

theorem Querier.Inv.lookups {fhs : List Cell} (hfhs : ∀ fh ∈ fhs, Plain fh) : ∀ {q : Querier} {flight : List Cell},
    q.Inv unresolvedHandler flight todo → Grows unresolvedHandler q (q.lookups fhs) todo := by
  induction fhs with
  | nil => exact fun h => ⟨rfl, ⟨_, h⟩, rfl, id⟩
  | cons fh fhs ih =>
    intro q flight h
    rw [List.forall_mem_cons] at hfhs
    have h₁ := h.lookup hfhs.1
    obtain ⟨flight₁, hinv₁⟩ := h₁.inv
    have h₂ := ih hfhs.2 hinv₁
    rw [Querier.lookups, if_pos h₁.returns]
    exact ⟨h₂.returns, h₂.inv, h₂.rows.trans h₁.rows, fun hcb => h₂.calls (h₁.calls hcb)⟩

/-- Invoking the callback that is next. -/
theorem Querier.Inv.invoke {cb : Nat} {row : PathRow} (h : q.Inv unresolvedHandler flight (cb :: todo))
    (hrow : row ∈ q.rows) (hcb : q.calls[cb]? = some row.fh) :
    { q with ran := q.ran ++ [(cb, row.answer unresolvedHandler)] }.Inv unresolvedHandler flight todo := by
  have hran : (q.ran ++ [(cb, row.answer unresolvedHandler)]).map Prod.fst ++ todo = q.ran.map Prod.fst ++ cb :: todo := by simp
  refine ⟨h.sock, h.plain, ?_, ?_, ?_, h.outstanding, h.distinct, ?_, ?_⟩
  · dsimp only
    rw [hran]
    exact h.each
  · dsimp only
    rw [hran]
    exact h.once
  · dsimp only
    rw [hran]
    exact h.known
  · dsimp only
    rw [hran]
    exact h.waiting
  · intro p hp
    rcases List.mem_append.mp hp with hp | hp
    · exact h.own p hp
    · rw [List.mem_singleton.mp hp]
      exact ⟨row, hrow, hcb, rfl⟩

variable {row : PathRow}

theorem Querier.Inv.forEach (hreact : ∀ cb path, ∀ fh ∈ react cb path, Plain fh) : ∀ {cbs : List Nat} {q : Querier} {flight : List Cell},
    q.Inv unresolvedHandler flight cbs → row ∈ q.rows → (∀ cb ∈ cbs, q.calls[cb]? = some row.fh) →
    ∃ flight', (q.forEach react (row.answer unresolvedHandler) cbs).1.Inv unresolvedHandler flight' [] := by
  intro cbs
  induction cbs with
  | nil => exact fun h _ _ => ⟨_, h⟩
  | cons cb cbs ih =>
    intro q flight h hrow hcbs
    rw [List.forall_mem_cons] at hcbs
    have h₁ := (h.invoke hrow hcbs.1).lookups (hreact cb (row.answer unresolvedHandler))
    obtain ⟨flight₁, hinv₁⟩ := h₁.inv
    rw [Querier.forEach, if_pos h₁.returns]
    exact ih hinv₁ (by rw [h₁.rows]; exact hrow) fun cb' hcb' => h₁.calls (hcbs.2 cb' hcb')

/-- Taking the row of the request that is next, and the callbacks pending for it. -/
theorem Querier.Inv.take {cbs : List Nat} (h : q.Inv unresolvedHandler (row.fh :: flight) [])
    (hcbs : q.pending row.fh = some cbs ∨ q.pending row.fh = none ∧ cbs = []) :
    ({ q with sock := requests flight, rows := q.rows ++ [row] }.set row.fh none).Inv unresolvedHandler flight cbs := by
  have hother : ∀ {gh gs}, Function.update q.pending row.fh none gh = some gs → gh ≠ row.fh ∧ q.pending gh = some gs := by
    intro gh gs hp
    by_cases hgh : gh = row.fh
    · rw [hgh, Function.update_self] at hp
      cases hp
    · rw [Function.update_of_ne hgh] at hp
      exact ⟨hgh, hp⟩
  have htaken : ∀ cb ∈ cbs, q.calls[cb]? = some row.fh ∧ cb ∉ q.ran.map Prod.fst := by
    intro cb hcb
    rcases hcbs with hp | ⟨-, rfl⟩
    · have hw := h.waiting row.fh cbs hp cb hcb
      rwa [List.append_nil] at hw
    · cases hcb
  have hnodup : cbs.Nodup := by
    rcases hcbs with hp | ⟨-, rfl⟩
    · exact h.distinct row.fh cbs hp
    · exact List.nodup_nil
  have hran : (q.ran.map Prod.fst).Nodup := by
    have := h.once
    rwa [List.append_nil] at this
  refine ⟨rfl, fun gh hgh => h.plain gh (List.mem_cons_of_mem _ hgh), fun cb hcb => ?_, ?_, fun cb hcb => ?_, fun gh gs hp => ?_,
    fun gh gs hp => h.distinct gh gs (hother hp).2, fun gh gs hp cb hcb => ?_, fun p hp => ?_⟩
  · rcases h.each cb hcb with hin | ⟨gh, gs, hp, hmem⟩
    · rw [List.append_nil] at hin
      exact Or.inl (List.mem_append_left _ hin)
    · by_cases hgh : gh = row.fh
      · subst hgh
        rcases hcbs with hq | ⟨hq, -⟩
        · rw [hp, Option.some_inj] at hq
          exact Or.inl (List.mem_append_right _ (hq ▸ hmem))
        · rw [hp] at hq
          cases hq
      · exact Or.inr ⟨gh, gs, (Function.update_of_ne hgh ..).trans hp, hmem⟩
  · rw [List.nodup_append]
    exact ⟨hran, hnodup, fun cb hcb cb' hcb' heq => (htaken cb' hcb').2 (heq ▸ hcb)⟩
  · rcases List.mem_append.mp hcb with hcb | hcb
    · exact h.known cb (List.mem_append_left _ hcb)
    · exact getElem?_calls_lt (htaken cb hcb).1
  · obtain ⟨hne, hq⟩ := hother hp
    exact (List.mem_cons.mp (h.outstanding gh gs hq)).resolve_left hne
  · obtain ⟨hne, hq⟩ := hother hp
    obtain ⟨hc, hno⟩ := h.waiting gh gs hq cb hcb
    rw [List.append_nil] at hno
    refine ⟨hc, fun hmem => ?_⟩
    rcases List.mem_append.mp hmem with hmem | hmem
    · exact hno hmem
    · exact hne (Option.some_inj.mp (hc.symm.trans (htaken cb hmem).1))
  · obtain ⟨r, hr, hc, hans⟩ := h.own p hp
    exact ⟨r, List.mem_append_left _ hr, hc, hans⟩

theorem Querier.set_none_of_none (h : q.pending fh = none) : q.set fh none = q := by
  rw [Querier.set, Function.update_eq_self_iff.mpr h.symm]

/-! ## Runs -/

def QuerierEvent.Plain : QuerierEvent → Prop
  | .lookup fh => Pathtree.Plain fh
  | .row _ _ => True

theorem Querier.Inv.processResult (row : PathRow) (hreact : ∀ cb path, ∀ fh ∈ react cb path, Plain fh)
    (h : q.Inv unresolvedHandler (row.fh :: flight) []) :
    ∃ flight', ({ q with sock := requests flight, rows := q.rows ++ [row] }.processResult unresolvedHandler react row).1.Inv
      unresolvedHandler flight' [] := by
  have hown : row.fh ∉ inherited := (h.plain row.fh List.mem_cons_self).own
  rcases hp : q.pending row.fh with _ | cbs
  · have hget : { q with sock := requests flight, rows := q.rows ++ [row] }.get row.fh = .undefined := by
      simp [Querier.get, hp, hown]
    have hinv := h.take (Or.inr ⟨hp, rfl⟩)
    rw [Querier.set_none_of_none (by exact hp)] at hinv
    simp only [Querier.processResult, hget]
    exact ⟨_, hinv⟩
  · have hget : { q with sock := requests flight, rows := q.rows ++ [row] }.get row.fh = .callbacks cbs := by
      simp [Querier.get, hp]
    simp only [Querier.processResult, hget]
    refine (h.take (Or.inl hp)).forEach hreact ?_ fun cb hcb => (h.waiting row.fh cbs hp cb hcb).1
    exact List.mem_append_right _ (List.mem_singleton_self row)

theorem Querier.Inv.step (hreact : ∀ cb path, ∀ fh ∈ react cb path, Plain fh) {e : QuerierEvent} (he : e.Plain)
    (h : q.Inv unresolvedHandler flight []) : ∃ flight', (q.step unresolvedHandler react e).Inv unresolvedHandler flight' [] := by
  cases e with
  | lookup fh => exact (h.lookup he).inv
  | row top path =>
    cases flight with
    | nil =>
      rw [Querier.step, h.sock, getline_nil]
      exact ⟨_, h⟩
    | cons fh flight =>
      rw [Querier.step, h.sock, getline_cons (h.plain fh List.mem_cons_self).line]
      exact Querier.Inv.processResult ⟨fh, top, path⟩ hreact h

theorem inv_run (hreact : ∀ cb path, ∀ fh ∈ react cb path, Plain fh) (es : List QuerierEvent) (hes : ∀ e ∈ es, e.Plain) :
    ∃ flight, (Querier.run unresolvedHandler react es).Inv unresolvedHandler flight [] := by
  induction es using List.reverseRecOn with
  | nil => exact ⟨[], inv_init⟩
  | append_singleton es e ih =>
    obtain ⟨flight, h⟩ := ih fun e' he' => hes e' (List.mem_append_left _ he')
    rw [Querier.run, List.foldl_append]
    exact h.step hreact (hes e (List.mem_append_right _ (List.mem_singleton_self e)))

/-- Whatever the order of lookups and rows, and whatever the callbacks look up. -/
theorem answered_once (unresolvedHandler : PathRow → Option Cell) (react : Nat → Option Cell → List Cell)
    (hreact : ∀ cb path, ∀ fh ∈ react cb path, Plain fh) (es : List QuerierEvent) (hes : ∀ e ∈ es, e.Plain) :
    (Querier.run unresolvedHandler react es).AnsweredOnce unresolvedHandler := by
  obtain ⟨flight, h⟩ := inv_run hreact es hes
  exact h.answeredOnce

/-- Two lookups of a handle; the first callback looks it up once more. -/
theorem answered_once_nested :
    (Querier.run (fun _ => none) (fun cb _ => if cb = 0 then [['a']] else [])
      [.lookup ['a'], .lookup ['a'], .row (some []) (some ['x']), .row none none, .row (some []) (some ['y'])]).AnsweredOnce
      fun _ => none := by
  have ha : Plain ['a'] := ⟨by decide, by decide⟩
  refine answered_once _ _ (fun cb path fh hfh => ?_) _ fun e he => ?_
  · split at hfh
    · exact List.mem_singleton.mp hfh ▸ ha
    · cases hfh
  · simp only [List.mem_cons, List.not_mem_nil, or_false] at he
    rcases he with rfl | rfl | rfl | rfl | rfl <;> first | exact ha | trivial

/-- The lookup of a handle of this name throws before it is written. -/
theorem inherited_handle_unanswered :
    ¬ (Querier.run (fun _ => none) (fun _ _ => []) [.lookup "constructor".toList]).AnsweredOnce fun _ => none := by
  intro h
  exact absurd ((h.all (by decide)).1 0 (by decide)) (by decide)

end Nfsdump.Pathtree
