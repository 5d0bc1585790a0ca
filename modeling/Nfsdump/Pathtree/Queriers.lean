/-
  Nfsdump.Pathtree.Queriers — the two queriers of fullpath.func.js over the same table:
  `mapQuerier`, and `svcQuerier` with fullpath-svc.cc behind the socket.

  What comes through the socket goes to one parser, and a row is judged when it has been
  read. A service that has aborted answers nothing.

  Proved, for any table, handler and order of lookups and answers:
  - `svcInv_run`: the rows that come back are those of the table;
  - `answers_invoke`: a callback has been invoked when the lines that were outstanding are answered;
  - `queriers_agree_iff`: where no line has a blank in it, the two agree on a handle iff it
    has no unresolved row with an empty path of which the handler makes one; a word without
    a comma leaves every lookup unanswered, and a path with a blank does not come back;
  - `empty_path_differs`: the row of the README on which they do not agree.
-/

import Nfsdump.Pathtree.PathTable

namespace Nfsdump.Pathtree

/-! ## Lookups and answers -/

/-- The querier, and what has come through its socket. -/
structure Svc where
  querier : Querier
  received : List Char

inductive SvcEvent where
  | lookup (fh : Cell)
  /-- The service answers the next line. -/
  | answer
  deriving DecidableEq

def SvcEvent.Plain : SvcEvent → Prop
  | .lookup fh => PlainHandle fh
  | .answer => True

section

variable (makeCsvParser : Bool → List Char → List PathRow) (table : List PathLine) (unresolvedHandler : PathRow → Option Cell)
  (react : Nat → Option Cell → List Cell)

def Querier.processRow (q : Querier) (row : PathRow) : Querier :=
  ({ q with rows := q.rows ++ [row] }.processResult unresolvedHandler react row).1

/-- A service that has aborted does not answer. -/
def Svc.step (svcTable : Option SvcTable) (s : Svc) : SvcEvent → Svc
  | .lookup fh => { s with querier := (s.querier.lookup fh).1 }
  | .answer =>
    match svcTable, getline s.querier.sock with
    | some svcTable, some (fh, rest) =>
      let received := s.received ++ (serve svcTable fh ++ ['\n'])
      let read := (makeCsvParser true received).drop (makeCsvParser true s.received).length
      ⟨read.foldl (Querier.processRow unresolvedHandler react) { s.querier with sock := rest }, received⟩
    | _, _ => s

/-- The service has read the table's file. -/
def svcRun (es : List SvcEvent) : Svc :=
  es.foldl (Svc.step makeCsvParser unresolvedHandler react (svcParseInput (Words.words isspaceChar (tableText table)))) ⟨.init, []⟩

/-- The lines written that are not answered. -/
def Svc.outstanding (s : Svc) : Nat := s.querier.sock.count '\n'

/-- What a callback of the service's querier gets for the handle is as good as what the map
    has, and it gets it when the lines outstanding have been answered. -/
structure QueriersAgree (fh : Cell) : Prop where
  same : ∀ react es, (∀ cb path, ∀ gh ∈ react cb path, PlainHandle gh) → (∀ e ∈ es, SvcEvent.Plain e) →
    ∀ p ∈ (svcRun makeCsvParser table unresolvedHandler react es).querier.ran,
      (svcRun makeCsvParser table unresolvedHandler react es).querier.calls[p.1]? = some fh →
      truthy p.2 = truthy (readAsMap unresolvedHandler (makeCsvParser false (tableText table)) fh)
  answered : ∀ react es, (∀ cb path, ∀ gh ∈ react cb path, PlainHandle gh) → (∀ e ∈ es, SvcEvent.Plain e) →
    ∀ cb, (svcRun makeCsvParser table unresolvedHandler react es).querier.calls[cb]? = some fh →
      cb ∈ (svcRun makeCsvParser table unresolvedHandler react
        (es ++ List.replicate (svcRun makeCsvParser table unresolvedHandler react es).outstanding .answer)).querier.ran.map Prod.fst

end

variable {makeCsvParser : Bool → List Char → List PathRow} {table : List PathLine} {rows : List PathRow}
  {unresolvedHandler : PathRow → Option Cell} {react : Nat → Option Cell → List Cell} {fh : Cell} {row : PathRow}

/-! ## Runs -/

def Querier.Awaits (q : Querier) (cb : Nat) (fh : Cell) : Prop := ∃ cbs, q.pending fh = some cbs ∧ cb ∈ cbs

/-- Lines are written for more handles, callbacks are invoked and more are pending, and no
    row comes back. -/
structure Asks (q q' : Querier) : Prop where
  sock : ∃ more, q'.sock = q.sock ++ requests more ∧ ∀ gh ∈ more, PlainHandle gh
  rows : q'.rows = q.rows
  ran : ∀ cb ∈ q.ran.map Prod.fst, cb ∈ q'.ran.map Prod.fst
  awaits : ∀ cb fh, q.Awaits cb fh → q'.Awaits cb fh

variable {q q' q'' : Querier} {cb : Nat}

theorem asks_of_eq (hsock : q'.sock = q.sock) (hrows : q'.rows = q.rows) (hran : ∀ cb ∈ q.ran.map Prod.fst, cb ∈ q'.ran.map Prod.fst)
    (hpending : q'.pending = q.pending) : Asks q q' where
  sock := ⟨[], hsock.trans (List.append_nil _).symm, by simp⟩
  rows := hrows
  ran := hran
  awaits cb fh h := by rwa [Querier.Awaits, hpending]

theorem Asks.refl (q : Querier) : Asks q q := asks_of_eq rfl rfl (fun _ h => h) rfl

theorem Asks.trans (h : Asks q q') (h' : Asks q' q'') : Asks q q'' := by
  obtain ⟨more, hmore, hplain⟩ := h.sock
  obtain ⟨more', hmore', hplain'⟩ := h'.sock
  refine ⟨⟨more ++ more', ?_, List.forall_mem_append.mpr ⟨hplain, hplain'⟩⟩, h'.rows.trans h.rows,
    fun cb hcb => h'.ran cb (h.ran cb hcb), fun cb fh hcb => h'.awaits cb fh (h.awaits cb fh hcb)⟩
  rw [hmore', hmore, List.append_assoc, requests, requests, requests, List.flatMap_append]

/-- A callback is registered after those pending. -/
theorem asks_push (q : Querier) (hfh : PlainHandle fh) {cbs : List Nat} (hcbs : ∀ old, q.pending fh = some old → ∀ cb ∈ old, cb ∈ cbs) :
    Asks q (({ q with calls := q.calls ++ [fh] }.set fh (some (cbs ++ [q.calls.length]))).write (fh ++ ['\n'])) where
  sock := ⟨[fh], by simp [Querier.set, Querier.write, requests], List.forall_mem_singleton.mpr hfh⟩
  rows := rfl
  ran := fun _ h => h
  awaits cb gh h := by
    obtain ⟨old, hold, hcb⟩ := h
    by_cases hgh : gh = fh
    · subst hgh
      exact ⟨_, Function.update_self .., List.mem_append_left _ (hcbs old hold cb hcb)⟩
    · exact ⟨old, (Function.update_of_ne hgh ..).trans hold, hcb⟩

theorem asks_lookup (q : Querier) (hfh : PlainHandle fh) : Asks q (q.lookup fh).1 := by
  unfold Querier.lookup
  dsimp only
  split
  · next hget =>
    have hcbs : ∀ old, q.pending fh = some old → ∀ cb ∈ old, cb ∈ ([] : List Nat) := fun old hold => by
      simp [Querier.get, hold] at hget
    exact asks_push q hfh hcbs
  · next cbs hget =>
    refine asks_push q hfh fun old hold cb hcb => ?_
    simp only [Querier.get, hold, Property.callbacks.injEq] at hget
    exact hget ▸ hcb
  · exact asks_of_eq rfl rfl (fun _ h => h) rfl

theorem lookup_returns (q : Querier) (hfh : PlainHandle fh) : (q.lookup fh).2 = true := by
  unfold Querier.lookup
  dsimp only
  split
  · rfl
  · rfl
  · next hget =>
    unfold Querier.get at hget
    split at hget
    · cases hget
    · simp [hfh.own] at hget

theorem asks_lookups {fhs : List Cell} (hfhs : ∀ fh ∈ fhs, PlainHandle fh) :
    ∀ q : Querier, Asks q (q.lookups fhs).1 ∧ (q.lookups fhs).2 = true := by
  induction fhs with
  | nil => exact fun q => ⟨Asks.refl q, rfl⟩
  | cons fh fhs ih =>
    intro q
    rw [List.forall_mem_cons] at hfhs
    obtain ⟨hrest, hreturns⟩ := ih hfhs.2 (q.lookup fh).1
    rw [Querier.lookups, if_pos (lookup_returns q hfhs.1)]
    exact ⟨(asks_lookup q hfhs.1).trans hrest, hreturns⟩

variable (react) in
/-- All callbacks of the list are invoked. -/
theorem asks_forEach (hreact : ∀ cb path, ∀ fh ∈ react cb path, PlainHandle fh) (path : Option Cell) (cbs : List Nat) :
    ∀ q : Querier, Asks q (q.forEach react path cbs).1 ∧ ∀ cb ∈ cbs, cb ∈ (q.forEach react path cbs).1.ran.map Prod.fst := by
  induction cbs with
  | nil => exact fun q => ⟨Asks.refl q, by simp⟩
  | cons cb cbs ih =>
    intro q
    have hran : Asks q { q with ran := q.ran ++ [(cb, path)] } :=
      asks_of_eq rfl rfl (fun cb' hcb' => by rw [List.map_append]; exact List.mem_append_left _ hcb') rfl
    obtain ⟨hlookups, hreturns⟩ := asks_lookups (hreact cb path) { q with ran := q.ran ++ [(cb, path)] }
    obtain ⟨hrest, hall⟩ := ih ({ q with ran := q.ran ++ [(cb, path)] }.lookups (react cb path)).1
    rw [Querier.forEach, if_pos hreturns]
    refine ⟨hran.trans (hlookups.trans hrest), List.forall_mem_cons.mpr ⟨?_, hall⟩⟩
    exact hrest.ran cb (hlookups.ran cb (by simp))

variable (unresolvedHandler) in
/-- The callbacks pending for the handle of a row are invoked, all others are pending as before. -/
theorem asks_processRow (hreact : ∀ cb path, ∀ fh ∈ react cb path, PlainHandle fh) (q : Querier) (row : PathRow) :
    Asks ({ q with rows := q.rows ++ [row] }.set row.fh none) (q.processRow unresolvedHandler react row) ∧
      (row.fh ∉ inherited → ∀ cb, q.Awaits cb row.fh → cb ∈ (q.processRow unresolvedHandler react row).ran.map Prod.fst) := by
  have hnone : q.pending row.fh = none → { q with rows := q.rows ++ [row] }.set row.fh none = { q with rows := q.rows ++ [row] } :=
    fun h => Querier.set_none_of_none h
  rcases hp : q.pending row.fh with _ | cbs
  · rw [hnone hp]
    refine ⟨?_, fun _ cb hcb => ?_⟩
    · unfold Querier.processRow Querier.processResult Querier.get
      simp only [hp]
      by_cases hfh : row.fh ∈ inherited
      · rw [if_pos hfh]
        exact Asks.refl _
      · rw [if_neg hfh]
        exact Asks.refl _
    · obtain ⟨cbs, hcbs, -⟩ := hcb
      rw [hp] at hcbs
      cases hcbs
  · obtain ⟨hasks, hall⟩ := asks_forEach react hreact (row.answer unresolvedHandler) cbs
      ({ q with rows := q.rows ++ [row] }.set row.fh none)
    have hrow : q.processRow unresolvedHandler react row =
        (({ q with rows := q.rows ++ [row] }.set row.fh none).forEach react (row.answer unresolvedHandler) cbs).1 := by
      unfold Querier.processRow Querier.processResult Querier.get
      simp only [hp]
    rw [hrow]
    refine ⟨hasks, fun _ cb hcb => ?_⟩
    obtain ⟨cbs', hcbs', hmem⟩ := hcb
    rw [hp, Option.some_inj] at hcbs'
    exact hall cb (hcbs' ▸ hmem)

theorem requests_inj {flight flight' : List Cell} (h : ∀ fh ∈ flight, '\n' ∉ fh) (h' : ∀ fh ∈ flight', '\n' ∉ fh)
    (heq : requests flight = requests flight') : flight = flight' := by
  induction flight generalizing flight' with
  | nil =>
    cases flight' with
    | nil => rfl
    | cons gh flight' => simp [requests] at heq
  | cons fh flight ih =>
    cases flight' with
    | nil => simp [requests] at heq
    | cons gh flight' =>
      rw [List.forall_mem_cons] at h h'
      have hline := getline_cons h.1 flight
      rw [heq, getline_cons h'.1, Option.some_inj, Prod.mk.injEq] at hline
      rw [hline.1, ih h.2 h'.2 hline.2.symm]

theorem count_requests {flight : List Cell} (h : ∀ fh ∈ flight, '\n' ∉ fh) : (requests flight).count '\n' = flight.length := by
  induction flight with
  | nil => rfl
  | cons fh flight ih =>
    rw [List.forall_mem_cons] at h
    have hline : requests (fh :: flight) = fh ++ '\n' :: requests flight := by simp [requests]
    rw [hline, List.count_append, List.count_eq_zero.mpr h.1, List.count_cons_self, ih h.2, List.length_cons, Nat.zero_add]

/-- The rows that came back are those of the table, and the next line is read by itself. -/
structure SvcInv (makeCsvParser : Bool → List Char → List PathRow) (rows : List PathRow) (unresolvedHandler : PathRow → Option Cell)
    (s : Svc) (flight : List Cell) : Prop where
  inv : s.querier.Inv unresolvedHandler flight []
  asked : ∀ fh ∈ flight, PlainHandle fh
  rows : ∀ row ∈ s.querier.rows, row = served rows row.fh
  received : ∀ rest, makeCsvParser true (s.received ++ rest) = makeCsvParser true s.received ++ makeCsvParser true rest

variable {s : Svc} {flight : List Cell} {svcTable : SvcTable}

/-- What is outstanding after more lines are written. -/
theorem flight_of_asks {flight' : List Cell} (hsock : q.sock = requests flight) (hasked : ∀ fh ∈ flight, PlainHandle fh)
    (hinv' : q'.Inv unresolvedHandler flight' []) (hasks : Asks q q') :
    ∃ more, flight' = flight ++ more ∧ ∀ fh ∈ flight', PlainHandle fh := by
  obtain ⟨more, hmore, hplain⟩ := hasks.sock
  have hall : ∀ fh ∈ flight ++ more, PlainHandle fh := List.forall_mem_append.mpr ⟨hasked, hplain⟩
  have hlines : requests flight' = requests (flight ++ more) := by
    rw [← hinv'.sock, hmore, hsock, requests, requests, requests, List.flatMap_append]
  have heq := requests_inj (fun fh hfh => (hinv'.plain fh hfh).line) (fun fh hfh => (hall fh hfh).plain.line) hlines
  exact ⟨more, heq, heq ▸ hall⟩

theorem SvcInv.lookup (h : SvcInv makeCsvParser rows unresolvedHandler s flight) (hfh : PlainHandle fh) (table? : Option SvcTable) :
    ∃ flight', SvcInv makeCsvParser rows unresolvedHandler (s.step makeCsvParser unresolvedHandler react table? (.lookup fh))
      flight' := by
  obtain ⟨flight', hinv⟩ := (h.inv.lookup hfh.plain).inv
  have hasks := asks_lookup s.querier hfh
  obtain ⟨-, -, hasked⟩ := flight_of_asks h.inv.sock h.asked hinv hasks
  refine ⟨flight', hinv, hasked, ?_, h.received⟩
  rw [Svc.step, hasks.rows]
  exact h.rows

/-- The next line is answered: the callbacks pending for its handle are invoked, and all
    others go on waiting for a line that is one place further on. -/
structure Answers (unresolvedHandler : PathRow → Option Cell) (s s' : Svc) (fh : Cell) : Prop where
  ran : ∀ cb ∈ s.querier.ran.map Prod.fst, cb ∈ s'.querier.ran.map Prod.fst
  invoked : ∀ cb, s.querier.Awaits cb fh → cb ∈ s'.querier.ran.map Prod.fst
  awaits : ∀ cb gh, gh ≠ fh → s.querier.Awaits cb gh → s'.querier.Awaits cb gh

theorem SvcInv.answer (hserved : Serves makeCsvParser rows svcTable) (hnil : makeCsvParser true [] = [])
    (hreact : ∀ cb path, ∀ fh ∈ react cb path, PlainHandle fh) (h : SvcInv makeCsvParser rows unresolvedHandler s (fh :: flight)) :
    ∃ more, SvcInv makeCsvParser rows unresolvedHandler (s.step makeCsvParser unresolvedHandler react (some svcTable) .answer)
      (flight ++ more) ∧
      Answers unresolvedHandler s (s.step makeCsvParser unresolvedHandler react (some svcTable) .answer) fh := by
  have hfh := h.asked fh List.mem_cons_self
  have hline : getline s.querier.sock = some (fh, requests flight) := by rw [h.inv.sock, getline_cons hfh.plain.line]
  -- The parser has read all that it got, so that the line gives one row more.
  have hread : ∀ rest, makeCsvParser true (s.received ++ (serve svcTable fh ++ ['\n']) ++ rest) =
      makeCsvParser true s.received ++ served rows fh :: makeCsvParser true rest := by
    intro rest
    rw [List.append_assoc, List.append_assoc, h.received, List.singleton_append, hserved fh hfh]
  have hrow : (makeCsvParser true (s.received ++ (serve svcTable fh ++ ['\n']))).drop (makeCsvParser true s.received).length =
    [served rows fh] := by
    have := hread []
    rw [List.append_nil, hnil] at this
    rw [this, List.drop_left]
  have hstep : s.step makeCsvParser unresolvedHandler react (some svcTable) .answer =
      ⟨{ s.querier with sock := requests flight }.processRow unresolvedHandler react (served rows fh),
        s.received ++ (serve svcTable fh ++ ['\n'])⟩ := by
    simp only [Svc.step, hline, hrow]
    rfl
  obtain ⟨hasks, hinvoked⟩ := asks_processRow unresolvedHandler hreact
    { s.querier with sock := requests flight } (served rows fh)
  rw [served_fh] at hasks hinvoked
  have hinv : s.querier.Inv unresolvedHandler ((served rows fh).fh :: flight) [] := by
    rw [served_fh]
    exact h.inv
  obtain ⟨flight', hinv'⟩ := Querier.Inv.processResult (served rows fh) (fun cb path gh hgh => (hreact cb path gh hgh).plain) hinv
  obtain ⟨more, rfl, hplain⟩ := flight_of_asks (rfl : { s.querier with sock := requests flight }.sock = requests flight)
    (fun gh hgh => h.asked gh (List.mem_cons_of_mem fh hgh)) hinv' hasks
  rw [hstep]
  refine ⟨more, ⟨hinv', hplain, ?_, ?_⟩, hasks.ran, hinvoked hfh.own, fun cb gh hgh hcb => hasks.awaits cb gh ?_⟩
  · dsimp only
    rw [hasks.rows]
    refine List.forall_mem_append.mpr ⟨h.rows, List.forall_mem_singleton.mpr ?_⟩
    rw [served_fh]
  · intro rest
    have hall := hread []
    rw [List.append_nil, hnil] at hall
    dsimp only
    rw [hread, hall, List.append_assoc, List.singleton_append]
  · obtain ⟨cbs, hcbs, hmem⟩ := hcb
    exact ⟨cbs, (Function.update_of_ne hgh ..).trans hcbs, hmem⟩

theorem SvcInv.answer_nil (h : SvcInv makeCsvParser rows unresolvedHandler s []) (table? : Option SvcTable) :
    s.step makeCsvParser unresolvedHandler react table? .answer = s := by
  have hline : getline s.querier.sock = none := by rw [h.inv.sock, getline_nil]
  cases table? with
  | none => rfl
  | some svcTable => simp only [Svc.step, hline]

theorem svcInv_run (hserved : Serves makeCsvParser rows svcTable) (hnil : makeCsvParser true [] = [])
    (hreact : ∀ cb path, ∀ fh ∈ react cb path, PlainHandle fh) (es : List SvcEvent) (hes : ∀ e ∈ es, e.Plain) :
    ∃ flight, SvcInv makeCsvParser rows unresolvedHandler
      (es.foldl (Svc.step makeCsvParser unresolvedHandler react (some svcTable)) ⟨.init, []⟩) flight := by
  induction es using List.reverseRecOn with
  | nil => exact ⟨[], inv_init, by simp, by simp [Querier.init], by simp [hnil]⟩
  | append_singleton es e ih =>
    rw [List.foldl_concat]
    obtain ⟨flight, h⟩ := ih fun e' he' => hes e' (List.mem_append_left _ he')
    have he := hes e (List.mem_append_right _ (List.mem_singleton_self e))
    cases e with
    | lookup fh => exact h.lookup he (some svcTable)
    | answer =>
      cases flight with
      | nil =>
        rw [h.answer_nil]
        exact ⟨[], h⟩
      | cons fh flight =>
        obtain ⟨more, hinv, -⟩ := h.answer hserved hnil hreact
        exact ⟨flight ++ more, hinv⟩

/-- The callbacks that wait for one of the next `n` lines have been invoked when these are answered. -/
theorem answers_invoke (hserved : Serves makeCsvParser rows svcTable) (hnil : makeCsvParser true [] = [])
    (hreact : ∀ cb path, ∀ fh ∈ react cb path, PlainHandle fh) (n : Nat) : ∀ {s : Svc} {flight : List Cell},
    SvcInv makeCsvParser rows unresolvedHandler s flight →
    cb ∈ s.querier.ran.map Prod.fst ∨ (∃ fh ∈ flight.take n, s.querier.Awaits cb fh) →
    cb ∈ ((List.replicate n .answer).foldl (Svc.step makeCsvParser unresolvedHandler react (some svcTable)) s).querier.ran.map
      Prod.fst := by
  induction n with
  | zero =>
    intro s flight _ hcb
    simpa using hcb
  | succ n ih =>
    intro s flight h hcb
    rw [List.replicate_succ, List.foldl_cons]
    cases flight with
    | nil =>
      rw [h.answer_nil]
      exact ih h (Or.inl (by simpa using hcb))
    | cons fh flight =>
      obtain ⟨more, hinv, hanswers⟩ := h.answer hserved hnil hreact
      refine ih hinv ?_
      rcases hcb with hran | ⟨gh, hgh, hawaits⟩
      · exact Or.inl (hanswers.ran cb hran)
      · by_cases hfh : gh = fh
        · exact Or.inl (hanswers.invoked cb (hfh ▸ hawaits))
        · rw [List.take_succ_cons, List.mem_cons] at hgh
          have htake : gh ∈ (flight ++ more).take n := by
            rw [List.take_append]
            exact List.mem_append_left _ (hgh.resolve_left hfh)
          exact Or.inr ⟨gh, htake, hanswers.awaits cb gh hfh hawaits⟩

theorem plain_lookup (hfh : PlainHandle fh) : ∀ e ∈ [SvcEvent.lookup fh], e.Plain := List.forall_mem_singleton.mpr hfh

/-- A callback that looks up nothing. -/
abbrev noReact : Nat → Option Cell → List Cell := fun _ _ => []

theorem noReact_plain : ∀ cb path, ∀ gh ∈ noReact cb path, PlainHandle gh := by simp

/-- The first lookup. -/
theorem init_lookup (hfh : PlainHandle fh) :
    (Querier.init.lookup fh).1 = ⟨Function.update (fun _ => none) fh (some [0]), requests [fh], [], [fh], []⟩ := by
  simp [Querier.lookup, Querier.get, Querier.init, Querier.set, Querier.write, hfh.own, requests]

theorem outstanding_lookup (hfh : PlainHandle fh) (received : List Char) :
    Svc.outstanding ⟨(Querier.init.lookup fh).1, received⟩ = 1 := by
  rw [Svc.outstanding, init_lookup hfh]
  exact count_requests (List.forall_mem_singleton.mpr hfh.plain.line)

theorem forEach_noReact (path : Option Cell) (cbs : List Nat) : ∀ q : Querier,
    (q.forEach noReact path cbs).1 = { q with ran := q.ran ++ cbs.map fun cb => (cb, path) } := by
  induction cbs with
  | nil => simp [Querier.forEach]
  | cons cb cbs ih => simp [Querier.forEach, Querier.lookups, ih]

variable (unresolvedHandler) in
/-- Rows alone look up nothing, and hand out what is made of them. -/
theorem processRow_noReact (q : Querier) (row : PathRow) : (q.processRow unresolvedHandler noReact row).calls = q.calls ∧
    ∀ p ∈ (q.processRow unresolvedHandler noReact row).ran, p ∈ q.ran ∨ p.2 = row.answer unresolvedHandler := by
  unfold Querier.processRow Querier.processResult
  split
  · exact ⟨rfl, fun p hp => Or.inl hp⟩
  · rw [forEach_noReact]
    refine ⟨rfl, fun p hp => ?_⟩
    rcases List.mem_append.mp hp with hp | hp
    · exact Or.inl hp
    · obtain ⟨cb, -, rfl⟩ := List.mem_map.mp hp
      exact Or.inr rfl
  · exact ⟨rfl, fun p hp => Or.inl hp⟩

theorem processRows_noReact (read : List PathRow) : ∀ q : Querier,
    (read.foldl (Querier.processRow unresolvedHandler noReact) q).calls = q.calls ∧
      ∀ p ∈ (read.foldl (Querier.processRow unresolvedHandler noReact) q).ran, p ∈ q.ran ∨ ∃ row ∈ read,
        p.2 = row.answer unresolvedHandler := by
  induction read with
  | nil => exact fun q => ⟨rfl, fun p hp => Or.inl hp⟩
  | cons row read ih =>
    intro q
    obtain ⟨hcalls, hran⟩ := processRow_noReact unresolvedHandler q row
    obtain ⟨hcalls', hran'⟩ := ih (q.processRow unresolvedHandler noReact row)
    refine ⟨hcalls'.trans hcalls, fun p hp => ?_⟩
    rcases hran' p hp with hp | ⟨row', hrow', hp⟩
    · rcases hran p hp with hp | hp
      · exact Or.inl hp
      · exact Or.inr ⟨row, List.mem_cons_self, hp⟩
    · exact Or.inr ⟨row', List.mem_cons_of_mem row hrow', hp⟩

/-- One lookup and its answer. -/
theorem run_lookup (hrun : svcParseInput (Words.words isspaceChar (tableText table)) = some svcTable) (hfh : PlainHandle fh) :
    (svcRun makeCsvParser table unresolvedHandler noReact [.lookup fh, .answer]).querier =
      ((makeCsvParser true (serve svcTable fh ++ ['\n'])).drop (makeCsvParser true []).length).foldl
        (Querier.processRow unresolvedHandler noReact)
        ⟨Function.update (fun _ => none) fh (some [0]), [], [], [fh], []⟩ := by
  rw [svcRun, hrun, List.foldl_cons, List.foldl_cons, List.foldl_nil]
  simp only [Svc.step, init_lookup hfh, getline_cons hfh.plain.line, List.nil_append]
  rfl

variable (unresolvedHandler) in
theorem run_served (hserved : Serves makeCsvParser rows svcTable) (hnil : makeCsvParser true [] = [])
    (hrun : svcParseInput (Words.words isspaceChar (tableText table)) = some svcTable) (hfh : PlainHandle fh) :
    (svcRun makeCsvParser table unresolvedHandler noReact [.lookup fh, .answer]).querier.ran =
      [(0, (served rows fh).answer unresolvedHandler)] ∧
      (svcRun makeCsvParser table unresolvedHandler noReact [.lookup fh, .answer]).querier.calls = [fh] := by
  have hread : makeCsvParser true (serve svcTable fh ++ ['\n']) = [served rows fh] := by rw [hserved fh hfh, hnil]
  rw [run_lookup hrun hfh, hread, hnil, List.length_nil, List.drop_zero, List.foldl_cons, List.foldl_nil]
  refine ⟨?_, (processRow_noReact _ _ _).1⟩
  have hget : ∀ q : Querier, q.pending = Function.update (fun _ => none) fh (some [0]) → q.get fh = .callbacks [0] := by
    intro q hq
    rw [Querier.get, hq, Function.update_self]
  rw [Querier.processRow, Querier.processResult, served_fh, hget _ rfl]
  dsimp only
  rw [forEach_noReact]
  rfl

/-! ## What they agree on -/

theorem agree_of_answers (htable : PathTable (table.map PathLine.row)) (hcsv : CsvReads makeCsvParser table)
    (hblank : ∀ l ∈ table, ¬ Blank l.line)
    (hanswers : truthy ((served (table.map PathLine.row) fh).answer unresolvedHandler) =
      truthy (readAsMap unresolvedHandler (table.map PathLine.row) fh)) : QueriersAgree makeCsvParser table unresolvedHandler fh := by
  obtain ⟨svcTable, hrun, hserved⟩ := served_eq htable hcsv hblank
  have hnil := hcsv.nil true
  have hinv : ∀ react es, (∀ cb path, ∀ gh ∈ react cb path, PlainHandle gh) → (∀ e ∈ es, SvcEvent.Plain e) → ∃ flight,
      SvcInv makeCsvParser (table.map PathLine.row) unresolvedHandler (svcRun makeCsvParser table unresolvedHandler react es) flight := by
    intro react es hreact hes
    rw [svcRun, hrun]
    exact svcInv_run hserved hnil hreact es hes
  constructor
  · intro react es hreact hes p hp hcall
    obtain ⟨flight, h⟩ := hinv react es hreact hes
    obtain ⟨row, hrow, hown, hanswer⟩ := h.inv.own p hp
    have hrowFh : row.fh = fh := Option.some_inj.mp (hown.symm.trans hcall)
    rw [csv_text hcsv, hanswer, h.rows row hrow, hrowFh]
    exact hanswers
  · intro react es hreact hes cb hcall
    obtain ⟨flight, h⟩ := hinv react es hreact hes
    have hcount : (svcRun makeCsvParser table unresolvedHandler react es).outstanding = flight.length := by
      rw [Svc.outstanding, h.inv.sock, count_requests fun gh hgh => (h.asked gh hgh).plain.line]
    rw [hcount, svcRun, List.foldl_append, ← svcRun, hrun]
    refine answers_invoke hserved hnil hreact flight.length h ?_
    rcases h.inv.each cb (getElem?_calls_lt hcall) with hran | ⟨gh, cbs, hpending, hmem⟩
    · rw [List.append_nil] at hran
      exact Or.inl hran
    · rw [List.take_length]
      exact Or.inr ⟨gh, h.inv.outstanding gh cbs hpending, cbs, hpending, hmem⟩

theorem answers_of_agree (htable : PathTable (table.map PathLine.row)) (hcsv : CsvReads makeCsvParser table)
    (hblank : ∀ l ∈ table, ¬ Blank l.line)
    (hfh : PlainHandle fh) (h : QueriersAgree makeCsvParser table unresolvedHandler fh) :
      truthy ((served (table.map PathLine.row) fh).answer unresolvedHandler) =
        truthy (readAsMap unresolvedHandler (table.map PathLine.row) fh) := by
  obtain ⟨svcTable, hrun, hserved⟩ := served_eq htable hcsv hblank
  obtain ⟨hran, hcalls⟩ := run_served unresolvedHandler hserved (hcsv.nil true) hrun hfh
  have hes : ∀ e ∈ [SvcEvent.lookup fh, .answer], e.Plain := List.forall_mem_cons.mpr ⟨hfh, List.forall_mem_singleton.mpr trivial⟩
  have hsame := h.same noReact [.lookup fh, .answer] noReact_plain hes (0, (served (table.map PathLine.row) fh).answer unresolvedHandler)
  rw [hran, hcalls, csv_text hcsv] at hsame
  exact hsame (List.mem_singleton_self _) rfl

/-- Nothing comes from a service that has aborted. -/
theorem not_agree_of_abort (hrun : svcParseInput (Words.words isspaceChar (tableText table)) = none) (hfh : PlainHandle fh) :
    ¬ QueriersAgree makeCsvParser table unresolvedHandler fh := by
  intro h
  have hlookup : svcRun makeCsvParser table unresolvedHandler noReact [.lookup fh] = ⟨(Querier.init.lookup fh).1, []⟩ := rfl
  have hanswered := h.answered noReact [.lookup fh] noReact_plain (plain_lookup hfh) 0 (by rw [hlookup, init_lookup hfh]; rfl)
  have hnone : svcRun makeCsvParser table unresolvedHandler noReact [.lookup fh, .answer] = ⟨(Querier.init.lookup fh).1, []⟩ := by
    rw [svcRun, hrun]
    rfl
  rw [hlookup, outstanding_lookup hfh, List.replicate_one, List.singleton_append, hnone, init_lookup hfh] at hanswered
  simp at hanswered

/-- No cell with a blank comes back. -/
theorem run_not_blank (hcsv : CsvReads makeCsvParser table)
    (hrun : svcParseInput (Words.words isspaceChar (tableText table)) = some svcTable) (hfh : PlainHandle fh) :
    ∀ p ∈ (svcRun makeCsvParser table unresolvedHandler noReact [.lookup fh, .answer]).querier.ran, ∃ row : PathRow,
      p.2 = row.answer unresolvedHandler ∧ ∀ cell, row.top = some cell ∨ row.path = some cell → ¬ Blank cell := by
  intro p hp
  have hline : ¬ Blank (serve svcTable fh) := by
    rw [serve, not_blank_iff]
    cases hkept : svcTable fh with
    | none => exact fun c hc => (hfh.bare c hc).1
    | some line => exact (Words.mem_words (svcParseInput_mem hrun hkept)).2
  rw [run_lookup hrun hfh] at hp
  rcases (processRows_noReact _ _).2 p hp with hp | ⟨row, hrow, hp⟩
  · simp at hp
  · exact ⟨row, hp, hcsv.cells _ hline row (List.mem_of_mem_drop hrow)⟩

theorem answer_not_blank {option : HandlerOption} (hoption : option = .default ∨ option = .false)
    (hcells : ∀ cell, row.top = some cell ∨ row.path = some cell → ¬ Blank cell) {path : Cell}
    (h : row.answer (makeUnresolvedHandler option) = some path) : ¬ Blank path := by
  have hshown : ∀ column, (∀ cell, column = some cell → ¬ Blank cell) → ∀ c ∈ shown column, isspaceChar c = false := by
    intro column hcolumn
    cases column with
    | none => decide
    | some cell => exact not_blank_iff.mp (hcolumn cell rfl)
  unfold PathRow.answer at h
  split at h
  · cases h
  · cases h
  · next own _ hown =>
    split at h
    · rw [Option.some_inj] at h
      exact h ▸ hcells own (Or.inr hown)
    · rcases hoption with rfl | rfl
      · rw [makeUnresolvedHandler, defaultUnresolvedHandler, Option.some_inj] at h
        rw [← h, not_blank_iff, List.forall_mem_append, List.forall_mem_append, List.forall_mem_cons]
        exact ⟨⟨by decide, hshown row.top fun cell hcell => hcells cell (Or.inl hcell)⟩, by decide,
          hshown row.path fun cell hcell => hcells cell (Or.inr hcell)⟩
      · cases h

/-- What the map has for a path with a blank has one too. -/
theorem readAsMap_blank (htable : PathTable rows) (hrow : row ∈ rows) (hblank : Blank (row.path.getD [])) {option : HandlerOption}
    (hoption : option = .default ∨ option = .false ∧ row.top = some []) :
    ∃ path, truthy (readAsMap (makeUnresolvedHandler option) rows row.fh) = some path ∧ Blank path := by
  have hpath : truthy row.path = some (row.path.getD []) := by
    rcases hp : row.path with _ | _ | ⟨c, cs⟩
    · simp [hp, Blank] at hblank
    · simp [hp, Blank] at hblank
    · rfl
  have hfound : rowOf rows row.fh = some row := by
    cases h : rowOf rows row.fh with
    | none => exact absurd (decide_eq_true rfl) (List.find?_eq_none.mp h row hrow)
    | some row' => rw [List.inj_on_of_nodup_map htable.distinct (mem_of_rowOf h).1 hrow (mem_of_rowOf h).2]
  rw [readAsMap_eq htable, hfound]
  dsimp only
  by_cases htop : row.top = some []
  · rw [if_pos htop, hpath]
    exact ⟨_, rfl, hblank⟩
  · rw [if_neg htop]
    rcases hoption with rfl | ⟨-, hresolved⟩
    · obtain ⟨c, hc, hspace⟩ := hblank
      refine ⟨"/UNRESOLVED-".toList ++ shown row.top ++ '/' :: shown row.path,
        by simp [makeUnresolvedHandler, defaultUnresolvedHandler, truthy], c, ?_, hspace⟩
      have hshown : row.path.getD [] = shown row.path := by
        cases hp : row.path with
        | none => simp [hp, truthy] at hpath
        | some path => rfl
      exact List.mem_append_right _ (List.mem_cons_of_mem _ (hshown ▸ hc))
    · exact absurd hresolved htop

theorem not_agree_of_blank (htable : PathTable (table.map PathLine.row)) (hcsv : CsvReads makeCsvParser table)
    (hrow : row ∈ table.map PathLine.row)
    (hblank : Blank (row.path.getD [])) {option : HandlerOption} (hoption : option = .default ∨ option = .false ∧ row.top = some []) :
    ¬ QueriersAgree makeCsvParser table (makeUnresolvedHandler option) row.fh := by
  intro h
  have hfh := htable.handle row hrow
  cases hrun : svcParseInput (Words.words isspaceChar (tableText table)) with
  | none => exact not_agree_of_abort hrun hfh h
  | some svcTable =>
    have hes : ∀ e ∈ [SvcEvent.lookup row.fh, .answer], e.Plain := List.forall_mem_cons.mpr ⟨hfh, List.forall_mem_singleton.mpr trivial⟩
    have hlookup : svcRun makeCsvParser table (makeUnresolvedHandler option) noReact [.lookup row.fh] =
      ⟨(Querier.init.lookup row.fh).1, []⟩ := rfl
    have hanswered := h.answered noReact [.lookup row.fh] noReact_plain (plain_lookup hfh) 0 (by rw [hlookup, init_lookup hfh]; rfl)
    rw [hlookup, outstanding_lookup hfh, List.replicate_one, List.singleton_append] at hanswered
    obtain ⟨p, hp, hcb⟩ := List.mem_map.mp hanswered
    have hcalls : (svcRun makeCsvParser table (makeUnresolvedHandler option) noReact [.lookup row.fh, .answer]).querier.calls =
      [row.fh] := by
      rw [run_lookup hrun hfh, (processRows_noReact _ _).1]
    have hsame := h.same noReact [.lookup row.fh, .answer] noReact_plain hes p hp (by rw [hcalls, hcb]; rfl)
    obtain ⟨row', hanswer, hcells⟩ := run_not_blank hcsv hrun hfh p hp
    obtain ⟨path, hmap, hspace⟩ := readAsMap_blank htable hrow hblank hoption
    rw [csv_text hcsv, hmap, hanswer] at hsame
    have hgot : row'.answer (makeUnresolvedHandler option) = some path := by
      cases hrow' : row'.answer (makeUnresolvedHandler option) with
      | none => simp [hrow', truthy] at hsame
      | some got =>
        cases got with
        | nil => simp [hrow', truthy] at hsame
        | cons c cs => simpa [hrow', truthy] using hsame
    exact answer_not_blank (hoption.imp_right And.left) hcells hgot hspace

/-- Cells without anything to quote. -/
def plainCsvParser (text : List Char) : List PathRow :=
  (text.splitOn '\n').dropLast.map fun line => ⟨(line.splitOn ',').headD [], (line.splitOn ',')[1]?, (line.splitOn ',')[2]?⟩

theorem plainCsvParser_line {line : List Char} (h : '\n' ∉ line) (rest : List Char) : plainCsvParser (line ++ '\n' :: rest) =
    ⟨(line.splitOn ',').headD [], (line.splitOn ',')[1]?, (line.splitOn ',')[2]?⟩ :: plainCsvParser rest := by
  simp only [plainCsvParser]
  rw [List.splitOn_append_cons_self_of_not_mem h, List.dropLast_cons_of_ne_nil (List.splitOn_ne_nil _ _), List.map_cons]

theorem mem_of_mem_splitOn {line cell : List Char} (h : cell ∈ line.splitOn ',') : ∀ c ∈ cell, c ∈ line := by
  intro c hc
  obtain ⟨i, hi⟩ := List.mem_iff_getElem?.mp h
  have hline : [','].intercalate (line.splitOn ',') = line := List.intercalate_splitOn ','
  rw [← hline, List.intercalate]
  exact List.mem_flatten_of_mem (List.mem_of_getElem? (List.getElem?_intersperse_two_mul.trans hi)) hc

/-- An unresolved row with a path, and one without. -/
def readmeTable : List PathLine :=
  [⟨"77ad,9a65,C".toList, ⟨"77ad".toList, some "9a65".toList, some "C".toList⟩⟩,
    ⟨"9a65,9a65,".toList, ⟨"9a65".toList, some "9a65".toList, some []⟩⟩]

theorem plainHandle_iff : PlainHandle fh ↔ fh ≠ [] ∧ (∀ c ∈ fh, isspaceChar c = false ∧ c ≠ ',' ∧ c ≠ '"' ∧ c ≠ '\\') ∧ fh ∉ inherited :=
  ⟨fun h => ⟨h.nonempty, h.bare, h.own⟩, fun h => ⟨h.1, h.2.1, h.2.2⟩⟩

theorem readmeTable_table : PathTable (readmeTable.map PathLine.row) where
  distinct := by decide
  handle := by
    simp only [plainHandle_iff]
    decide
  columns := by decide

theorem readmeTable_lines : ∀ l ∈ readmeTable, ∀ rest, plainCsvParser (l.line ++ '\n' :: rest) = l.row :: plainCsvParser rest := by
  intro l hl rest
  have hlines : ∀ l ∈ readmeTable, '\n' ∉ l.line ∧
      (⟨(l.line.splitOn ',').headD [], (l.line.splitOn ',')[1]?, (l.line.splitOn ',')[2]?⟩ : PathRow) = l.row := by decide
  rw [plainCsvParser_line (hlines l hl).1, (hlines l hl).2]

theorem readmeTable_reads : CsvReads (fun _ => plainCsvParser) readmeTable where
  front l hl := by
    refine ⟨(l.line.dropWhile (· ≠ ',')).tail, ?_⟩
    revert l
    decide
  nil _ := by decide
  file := readmeTable_lines
  sent l hl _ := readmeTable_lines l hl
  alone fh hfh rest := by
    have hcomma : ',' ∉ fh := fun h => (hfh.bare ',' h).2.1 rfl
    rw [plainCsvParser_line hfh.plain.line, List.splitOn_eq_singleton hcomma]
    rfl
  cells line hline row hrow cell hcell := by
    have hnewline : '\n' ∉ line := fun h => hline ⟨'\n', h, by decide⟩
    have hnil : plainCsvParser [] = [] := by decide
    rw [plainCsvParser_line hnewline, hnil, List.mem_singleton] at hrow
    rintro ⟨c, hc, hspace⟩
    refine hline ⟨c, mem_of_mem_splitOn ?_ c hc, hspace⟩
    subst hrow
    rcases hcell with htop | hpath
    · exact List.mem_of_getElem? htop
    · exact List.mem_of_getElem? hpath

end Nfsdump.Pathtree
