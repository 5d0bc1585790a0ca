/-
  Nfsdump.Driver.Zipper — logs anonymized behind the back of the nfsdumps that write them
  (scripts/nfs-logger.pl and nfs-zipper.pl, with DoAnonymization).

  Each nfs-logger runs an nfsdump, which writes to a temporary file of its own and renames
  it when its interval is over; the next one may start before the last has ended. Cron starts
  a zipper now and then, one at a time. It takes the logs that are there when it starts, one
  after the other: unless there is an archive of that name it anonymizes the log into one, and
  in either case it unlinks the log. All share one directory.

  Proved, over every interleaving, as long as no two logs are given one name:
  - `delivered`: what an nfsdump wrote is in its logs and its temporary file; a log is whole
    under its name until it is archived, and its archive is the log renamed, all archives
    under one naming, of file ids too as long as no zipper opens the maps for two logs;
  - `archived_by_next`: a zipper that has ended archived and removed every log that was there
    when it started.
-/

import Nfsdump.Driver.IntervalLoop
import Nfsdump.Anonymize.OneNaming

namespace Nfsdump.Driver

open Calendar Anonymize
open Anonymize (Session anonymizeStream readLines)

/-! ## Names -/

/-- `TEMP-LOG.$$` -/
def tempLog (pid : Nat) : Text := "TEMP-LOG.".toList ++ Nat.toDigits 10 pid

/-- `/.txt.gz$/` -/
def isTxtGz (df : Text) : Bool :=
  match df.reverse with
  | 'z' :: 'g' :: _ :: 't' :: 'x' :: 't' :: _ :: _ => true
  | _ => false

/-- `$out_file` of `doAnonZip`. -/
def anonName (df : Text) : Text := "anon-".toList ++ if isTxtGz df then df else df ++ ".gz".toList

/-- `"$LogName-*.txt"` -/
def Globbed (LogName n : Text) : Prop := ∃ x, n = LogName ++ '-' :: (x ++ ".txt".toList)

/-! ## Files and processes -/

/-- The text of an archive is what `gunzip` gives. -/
inductive Entry where
  | text (t : Text)
  | summary
  | gz (t : Text)

inductive Zipper where
  | idle
  | next (todo : List Text)
  /-- `IN` and `OUT` are open; `t` is what is read from `IN`. -/
  | anonymizing (df t : Text) (todo : List Text)
  | unlinking (df : Text) (todo : List Text)

structure Log where
  pid : Nat
  name : Text
  text : Text

structure Relay where
  disk : Text → Option Entry
  /-- The nfsdumps that opened a temporary file. -/
  dumpers : List Nat
  /-- What each of them wrote. -/
  written : Nat → Text
  /-- What they renamed. -/
  logs : List Log
  zipper : Zipper
  session : Session
  /-- The zipper that runs or comes next has not opened the maps. -/
  fresh : Bool
  /-- Some zipper opened them for a second log. -/
  twice : Bool
  /-- Names and texts of the logs anonymized. -/
  archived : List (Text × Text)

def catFile (disk : Text → Option Entry) (df : Text) : Text :=
  match disk df with
  | some (.text t) => t
  | _ => []

inductive Step (base LogName : Text) : Relay → Relay → Prop
  /-- The first `updateOutFile` of an nfsdump. -/
  | start (s : Relay) (pid : Nat) : pid ∉ s.dumpers →
      Step base LogName s { s with
        disk := Function.update s.disk (tempLog pid) (some (.text [])), dumpers := pid :: s.dumpers
        written := Function.update s.written pid [] }
  | write (s : Relay) (pid : Nat) (t u : Text) : pid ∈ s.dumpers → s.disk (tempLog pid) = some (.text u) →
      Step base LogName s { s with
        disk := Function.update s.disk (tempLog pid) (some (.text (u ++ t)))
        written := Function.update s.written pid (s.written pid ++ t) }
  /-- Another `updateOutFile`: `rename`, `printSummary` and `fopen`. -/
  | rotate (s : Relay) (pid : Nat) (tm : Tm) (u : Text) : pid ∈ s.dumpers → s.disk (tempLog pid) = some (.text u) →
      Step base LogName s { s with
        disk := Function.update
          (Function.update (Function.update s.disk (logName LogName tm ".txt".toList) (some (.text u)))
            (logName LogName tm ".sum".toList) (some .summary))
          (tempLog pid) (some (.text []))
        logs := s.logs ++ [⟨pid, logName LogName tm ".txt".toList, u⟩] }
  | glob (s : Relay) (names : List Text) : s.zipper = .idle → names.Nodup → (∀ n, n ∈ names ↔ Globbed LogName n ∧ s.disk n ≠ none) →
      Step base LogName s { s with zipper := .next names }
  | skip (s : Relay) (df : Text) (todo : List Text) : s.zipper = .next (df :: todo) → s.disk (anonName df) ≠ none →
      Step base LogName s { s with zipper := .unlinking df todo }
  | openOut (s : Relay) (df : Text) (todo : List Text) (r : Restart) :
      s.zipper = .next (df :: todo) → s.disk (anonName df) = none → r.exit = s.fresh →
      Step base LogName s { s with
        disk := Function.update s.disk (anonName df) (some (.gz []))
        zipper := .anonymizing df (catFile s.disk df) todo
        session := s.session.reopen base r
        fresh := false
        twice := s.twice || !s.fresh }
  | closeOut (s : Relay) (df t : Text) (todo : List Text) : s.zipper = .anonymizing df t todo →
      Step base LogName s { s with
        disk := Function.update s.disk (anonName df) (some (.gz (anonymizeStream s.session (readLines t)).2))
        zipper := .unlinking df todo
        session := (anonymizeStream s.session (readLines t)).1.close
        archived := s.archived ++ [(df, t)] }
  | unlink (s : Relay) (df : Text) (todo : List Text) : s.zipper = .unlinking df todo →
      Step base LogName s { s with disk := Function.update s.disk df none, zipper := .next todo }
  | exit (s : Relay) : s.zipper = .next [] →
      Step base LogName s { s with zipper := .idle, fresh := true }

/-- An empty directory. -/
def Relay.init : Relay := ⟨fun _ => none, [], fun _ => [], [], .idle, .boot, true, false, []⟩

inductive Reachable (base LogName : Text) : Relay → Prop
  | init : Reachable base LogName Relay.init
  | step {s s' : Relay} : Reachable base LogName s → Step base LogName s s' → Reachable base LogName s'

variable {base LogName n n' : Text} {s s' : Relay} {tm : Tm} {pid : Nat}

/-! ## No two kinds of names are the same -/

theorem last_of_suffix (front : Text) {suffix : Text} (hne : suffix ≠ []) : (front ++ suffix).getLast? = suffix.getLast? := by
  rw [List.getLast?_append_of_ne_nil _ hne]

theorem logName_split (tm : Tm) (suffix : Text) : logName LogName tm suffix = (LogName ++ '-' :: logDate tm) ++ suffix := by
  rw [logName, List.append_assoc, List.cons_append]

theorem last_sum (tm : Tm) : (logName LogName tm ".sum".toList).getLast? = some 'm' := by
  rw [logName_split, last_of_suffix _ (by decide)]
  rfl

theorem last_glob (h : Globbed LogName n) : n.getLast? = some 't' := by
  obtain ⟨x, rfl⟩ := h
  rw [← List.cons_append, ← List.append_assoc, last_of_suffix _ (by decide)]
  rfl

theorem globbed_log (tm : Tm) : Globbed LogName (logName LogName tm ".txt".toList) := by
  refine ⟨logDate tm, ?_⟩
  rw [logName]

theorem isTxtGz_last (h : isTxtGz n = true) : n.getLast? = some 'z' := by
  unfold isTxtGz at h
  split at h
  · next hrev => rw [← List.head?_reverse, hrev]; rfl
  · cases h

theorem last_anon (n : Text) : (anonName n).getLast? = some 'z' := by
  unfold anonName
  split
  · next h =>
    have hlast := isTxtGz_last h
    rw [List.getLast?_append, hlast]
    rfl
  · rw [← List.append_assoc, last_of_suffix _ (by decide)]
    rfl

theorem last_temp (pid : Nat) : ∃ c, (tempLog pid).getLast? = some c ∧ c.isDigit = true := by
  have hne : Nat.toDigits 10 pid ≠ [] := Nat.toDigits_ne_nil
  obtain ⟨c, hc⟩ : ∃ c, (Nat.toDigits 10 pid).getLast? = some c := by
    rw [← Option.isSome_iff_exists, List.getLast?_isSome]
    exact hne
  have hlast : (tempLog pid).getLast? = (Nat.toDigits 10 pid).getLast? := last_of_suffix "TEMP-LOG.".toList hne
  exact ⟨c, hlast.trans hc, Digits.isDigit_toDigits (List.mem_of_getLast? hc)⟩

theorem tempLog_inj {pid pid' : Nat} (h : tempLog pid = tempLog pid') : pid = pid' :=
  Digits.toDigits_injective (by decide) (by decide) (List.append_cancel_left h)

theorem anonName_glob (h : Globbed LogName n) : anonName n = "anon-".toList ++ (n ++ ".gz".toList) := by
  have hno : isTxtGz n = false := by
    rw [Bool.eq_false_iff]
    intro hz
    exact absurd (Option.some_inj.mp ((last_glob h).symm.trans (isTxtGz_last hz))) (by decide)
  rw [anonName, hno]
  rfl

theorem anonName_inj (h : Globbed LogName n) (h' : Globbed LogName n') (heq : anonName n = anonName n') : n = n' := by
  rw [anonName_glob h, anonName_glob h'] at heq
  exact List.append_cancel_right (List.append_cancel_left heq)

theorem ne_of_last {c c' : Char} (h : n.getLast? = some c) (h' : n'.getLast? = some c') (hne : c ≠ c') : n ≠ n' :=
  fun heq => hne (Option.some_inj.mp (h.symm.trans ((congrArg List.getLast? heq).trans h')))

theorem temp_ne {c : Char} (h : n.getLast? = some c) (hc : c.isDigit = false) : n ≠ tempLog pid := by
  obtain ⟨d, hd, hdigit⟩ := last_temp pid
  refine ne_of_last h hd fun heq => ?_
  rw [heq, hdigit] at hc
  cases hc

theorem glob_ne_temp (h : Globbed LogName n) : n ≠ tempLog pid := temp_ne (last_glob h) rfl
theorem glob_ne_sum (h : Globbed LogName n) : n ≠ logName LogName tm ".sum".toList := ne_of_last (last_glob h) (last_sum tm) (by decide)
theorem glob_ne_anon (h : Globbed LogName n) : n ≠ anonName n' := ne_of_last (last_glob h) (last_anon n') (by decide)
theorem anon_ne_temp : anonName n ≠ tempLog pid := temp_ne (last_anon n) rfl
theorem anon_ne_sum : anonName n ≠ logName LogName tm ".sum".toList := ne_of_last (last_anon n) (last_sum tm) (by decide)
theorem sum_ne_temp : logName LogName tm ".sum".toList ≠ tempLog pid := temp_ne (last_sum tm) rfl

/-! ## What nfsdumps wrote -/

/-- The text of each nfsdump is in its logs and its temporary file. -/
structure Accounted (LogName : Text) (s : Relay) : Prop where
  text : ∀ pid ∈ s.dumpers, ∃ u, s.disk (tempLog pid) = some (.text u) ∧
    s.written pid = (s.logs.filter (·.pid = pid)).flatMap Log.text ++ u
  owned : ∀ l ∈ s.logs, l.pid ∈ s.dumpers

theorem Accounted.frame (h : Accounted LogName s) (hdisk : ∀ pid, s'.disk (tempLog pid) = s.disk (tempLog pid))
    (hdumpers : s'.dumpers = s.dumpers) (hwritten : s'.written = s.written) (hlogs : s'.logs = s.logs) : Accounted LogName s' := by
  refine ⟨?_, ?_⟩
  · intro pid hpid
    rw [hdisk, hwritten, hlogs]
    exact h.text pid (hdumpers ▸ hpid)
  · rw [hlogs, hdumpers]
    exact h.owned

/-- A write that is to no temporary file. -/
theorem Accounted.elsewhere {x : Option Entry} (h : Accounted LogName s) (hne : ∀ pid, n ≠ tempLog pid)
    (hdisk : s'.disk = Function.update s.disk n x) (hdumpers : s'.dumpers = s.dumpers) (hwritten : s'.written = s.written)
    (hlogs : s'.logs = s.logs) : Accounted LogName s' :=
  h.frame (fun pid => by rw [hdisk, Function.update_of_ne (hne pid).symm]) hdumpers hwritten hlogs

theorem Accounted.start (h : Accounted LogName s) (hnew : pid ∉ s.dumpers) : Accounted LogName { s with
    disk := Function.update s.disk (tempLog pid) (some (.text [])), dumpers := pid :: s.dumpers
    written := Function.update s.written pid [] } := by
  refine ⟨List.forall_mem_cons.mpr ⟨⟨[], Function.update_self .., ?_⟩, fun p hp => ?_⟩, fun l hl => List.mem_cons_of_mem _ (h.owned l hl)⟩
  · have hnone : s.logs.filter (·.pid = pid) = [] :=
      List.filter_eq_nil_iff.mpr fun l hl he => hnew (of_decide_eq_true he ▸ h.owned l hl)
    dsimp only
    rw [Function.update_self, hnone]
    rfl
  · have hne : p ≠ pid := fun he => hnew (he ▸ hp)
    dsimp only
    rw [Function.update_of_ne fun he => hne (tempLog_inj he), Function.update_of_ne hne]
    exact h.text p hp

theorem Accounted.write {t u : Text} (h : Accounted LogName s) (hpid : pid ∈ s.dumpers) (hu : s.disk (tempLog pid) = some (.text u)) :
    Accounted LogName { s with
      disk := Function.update s.disk (tempLog pid) (some (.text (u ++ t)))
      written := Function.update s.written pid (s.written pid ++ t) } := by
  refine ⟨fun p hp => ?_, h.owned⟩
  dsimp only
  by_cases he : p = pid
  · subst he
    obtain ⟨v, hv, hw⟩ := h.text p hpid
    rw [hu] at hv
    cases hv
    refine ⟨u ++ t, Function.update_self .., ?_⟩
    rw [Function.update_self, hw, List.append_assoc]
  · rw [Function.update_of_ne fun heq => he (tempLog_inj heq), Function.update_of_ne he]
    exact h.text p hp

theorem Accounted.rotate {u : Text} (h : Accounted LogName s) (tm : Tm) (hpid : pid ∈ s.dumpers)
    (hu : s.disk (tempLog pid) = some (.text u)) : Accounted LogName { s with
      disk := Function.update
        (Function.update (Function.update s.disk (logName LogName tm ".txt".toList) (some (.text u)))
          (logName LogName tm ".sum".toList) (some .summary))
        (tempLog pid) (some (.text []))
      logs := s.logs ++ [⟨pid, logName LogName tm ".txt".toList, u⟩] } := by
  refine ⟨fun p hp => ?_, fun l hl => ?_⟩
  · dsimp only
    by_cases he : p = pid
    · subst he
      obtain ⟨v, hv, hw⟩ := h.text p hpid
      rw [hu] at hv
      cases hv
      refine ⟨[], Function.update_self .., ?_⟩
      rw [hw, List.filter_append, List.filter_cons_of_pos (by simp), List.flatMap_append, List.append_nil]
      exact congrArg (_ ++ ·) (List.append_nil u).symm
    · obtain ⟨v, hv, hw⟩ := h.text p hp
      refine ⟨v, ?_, ?_⟩
      · rw [Function.update_of_ne fun heq => he (tempLog_inj heq), Function.update_of_ne sum_ne_temp.symm,
          Function.update_of_ne (glob_ne_temp (globbed_log tm)).symm, hv]
      · rw [hw, List.filter_append, List.filter_cons_of_neg (by simpa using Ne.symm he), List.filter_nil, List.append_nil]
  · rcases List.mem_append.mp hl with hl | hl
    · exact h.owned l hl
    · rw [List.mem_singleton.mp hl]
      exact hpid

/-! ## Logs and archives -/

def Zipper.todo : Zipper → List Text
  | .idle => []
  | .next todo => todo
  | .anonymizing _ _ todo => todo
  | .unlinking _ todo => todo

/-- No log is being anonymized. -/
def Zipper.Between (z : Zipper) : Prop := ∀ n t todo, z ≠ .anonymizing n t todo

def Relay.names (s : Relay) : List Text := s.logs.map Log.name

def Relay.done (s : Relay) : List Text := s.archived.map Prod.fst

/-- The keys of all logs anonymized, in the order they were asked for. -/
def Relay.keys (s : Relay) : Keys := s.archived.flatMap fun a => fileKeys a.2

/-- A log that was renamed to `n`, with text `t`. -/
def Relay.Logged (s : Relay) (n t : Text) : Prop := ∃ l ∈ s.logs, l.name = n ∧ l.text = t

/-- What is archived of `t`: it under any naming of the keys of all archives. -/
def Relay.Archive (s : Relay) (n t : Text) : Prop :=
  ∃ c, s.disk (anonName n) = some (.gz c) ∧ Renders (s.twice = false) s.keys t c

structure Stored (base LogName : Text) (s : Relay) : Prop where
  globbed : ∀ n ∈ s.names, Globbed LogName n
  whole : ∀ l ∈ s.logs, l.name ∉ s.done → s.disk l.name = some (.text l.text)
  present : ∀ n, Globbed LogName n → s.disk n ≠ none → n ∈ s.names
  archived : ∀ a ∈ s.archived, s.Logged a.1 a.2 ∧ s.Archive a.1 a.2
  once : s.done.Nodup
  /-- A log that was archived is gone, or about to. -/
  gone : ∀ n ∈ s.done, s.disk n = none ∨ ∃ todo, s.zipper = .unlinking n todo
  /-- An archive is of a log that was archived, or is being. -/
  anon : ∀ n, Globbed LogName n → s.disk (anonName n) ≠ none → n ∈ s.done ∨ ∃ t todo, s.zipper = .anonymizing n t todo
  todo : s.zipper.todo.Nodup ∧ ∀ n ∈ s.zipper.todo, n ∈ s.names ∧ n ∉ s.done
  unlinking : ∀ n todo, s.zipper = .unlinking n todo → n ∈ s.done
  anonymizing : ∀ n t todo, s.zipper = .anonymizing n t todo → s.Logged n t ∧ n ∉ s.done ∧ n ∉ todo
  knows : ∀ n t todo, s.zipper = .anonymizing n t todo → s.session.Knows (s.twice = false) s.keys
  /-- Between two logs the maps are closed. -/
  ready : s.zipper.Between → ∀ r : Restart, (s.session.reopen base r).Knows (s.twice = false ∧ r.exit = true) s.keys

theorem between_idle : Zipper.idle.Between := fun _ _ _ he => by cases he
theorem between_next (todo : List Text) : (Zipper.next todo).Between := fun _ _ _ he => by cases he
theorem between_unlinking (df : Text) (todo : List Text) : (Zipper.unlinking df todo).Between := fun _ _ _ he => by cases he

theorem Relay.Logged.mem_names {t : Text} (h : s.Logged n t) : n ∈ s.names := by
  obtain ⟨l, hl, rfl, -⟩ := h
  exact List.mem_map_of_mem hl

theorem Stored.done_names (h : Stored base LogName s) (hn : n ∈ s.done) : n ∈ s.names := by
  obtain ⟨a, ha, rfl⟩ := List.mem_map.mp hn
  exact (h.archived a ha).1.mem_names

/-- A step that leaves logs, archives and the zipper alone. -/
theorem Stored.frame (h : Stored base LogName s) (hdisk : ∀ n, Globbed LogName n → s'.disk n = s.disk n ∧
    s'.disk (anonName n) = s.disk (anonName n))
    (hlogs : s'.logs = s.logs) (hzipper : s'.zipper = s.zipper) (harchived : s'.archived = s.archived)
    (hsession : s'.session = s.session) (htwice : s'.twice = s.twice) : Stored base LogName s' := by
  have hnames : s'.names = s.names := congrArg (List.map Log.name) hlogs
  have hdone : s'.done = s.done := congrArg (List.map Prod.fst) harchived
  have hkeys : s'.keys = s.keys := by rw [Relay.keys, harchived]; rfl
  refine ⟨?_, ?_, ?_, ?_, ?_, ?_, ?_, ?_, ?_, ?_, ?_, ?_⟩
  · rw [hnames]
    exact h.globbed
  · intro l hl hno
    rw [hlogs] at hl
    rw [hdone] at hno
    rw [(hdisk l.name (h.globbed _ (List.mem_map_of_mem hl))).1]
    exact h.whole l hl hno
  · intro n hn hne
    rw [(hdisk n hn).1] at hne
    rw [hnames]
    exact h.present n hn hne
  · intro a ha
    rw [harchived] at ha
    obtain ⟨hlogged, c, hc, hν⟩ := h.archived a ha
    have hglob := h.globbed _ hlogged.mem_names
    refine ⟨by rwa [Relay.Logged, hlogs], c, by rw [(hdisk _ hglob).2, hc], by rwa [hkeys, htwice]⟩
  · rw [hdone]
    exact h.once
  · intro n hn
    rw [hdone] at hn
    rw [(hdisk n (h.globbed n (h.done_names hn))).1, hzipper]
    exact h.gone n hn
  · intro n hn hne
    rw [(hdisk n hn).2] at hne
    rw [hdone, hzipper]
    exact h.anon n hn hne
  · rw [hzipper, hnames, hdone]
    exact h.todo
  · rw [hzipper, hdone]
    exact h.unlinking
  · intro n t todo hz
    rw [hzipper] at hz
    rw [Relay.Logged, hlogs, hdone]
    exact h.anonymizing n t todo hz
  · rw [hzipper, hsession, hkeys, htwice]
    exact h.knows
  · rw [hzipper, hsession, hkeys, htwice]
    exact h.ready

theorem Stored.rotate {u : Text} (h : Stored base LogName s) (hnew : logName LogName tm ".txt".toList ∉ s.names) :
    Stored base LogName { s with
      disk := Function.update (Function.update (Function.update s.disk (logName LogName tm ".txt".toList) (some (.text u)))
        (logName LogName tm ".sum".toList) (some .summary)) (tempLog pid) (some (.text []))
      logs := s.logs ++ [⟨pid, logName LogName tm ".txt".toList, u⟩] } := by
  set name := logName LogName tm ".txt".toList with hname
  set disk := Function.update (Function.update (Function.update s.disk name (some (.text u))) (logName LogName tm ".sum".toList)
    (some .summary)) (tempLog pid) (some (.text [])) with hdisk
  have hglob : Globbed LogName name := globbed_log tm
  have hother : ∀ n, Globbed LogName n → n ≠ name → disk n = s.disk n := by
    intro n hn hne
    rw [hdisk, Function.update_of_ne (glob_ne_temp hn), Function.update_of_ne (glob_ne_sum hn), Function.update_of_ne hne]
  have hself : disk name = some (.text u) := by
    rw [hdisk, Function.update_of_ne (glob_ne_temp hglob), Function.update_of_ne (glob_ne_sum hglob), Function.update_self]
  have hanon : ∀ n, disk (anonName n) = s.disk (anonName n) := by
    intro n
    rw [hdisk, Function.update_of_ne anon_ne_temp, Function.update_of_ne anon_ne_sum, Function.update_of_ne (glob_ne_anon hglob).symm]
  have hnames : (s.logs ++ [(⟨pid, name, u⟩ : Log)]).map Log.name = s.names ++ [name] := List.map_append
  have hlogged : ∀ {n t : Text}, s.Logged n t → ∃ l ∈ s.logs ++ [(⟨pid, name, u⟩ : Log)], l.name = n ∧ l.text = t := by
    rintro n t ⟨l, hl, hlog⟩
    exact ⟨l, List.mem_append_left _ hl, hlog⟩
  refine ⟨?_, ?_, ?_, ?_, h.once, ?_, ?_, ?_, h.unlinking, ?_, h.knows, h.ready⟩
  · show ∀ n ∈ List.map Log.name _, _
    rw [hnames]
    intro n hn
    rcases List.mem_append.mp hn with hn | hn
    · exact h.globbed n hn
    · exact List.mem_singleton.mp hn ▸ hglob
  · intro l hl hno
    rcases List.mem_append.mp hl with hl | hl
    · have hin : l.name ∈ s.names := List.mem_map_of_mem hl
      exact (hother _ (h.globbed _ hin) fun he => hnew (he ▸ hin)).trans (h.whole l hl hno)
    · rw [List.mem_singleton.mp hl]
      exact hself
  · intro n hn hne
    show n ∈ List.map Log.name _
    rw [hnames, List.mem_append, List.mem_singleton]
    by_cases he : n = name
    · exact Or.inr he
    · exact Or.inl (h.present n hn (hother n hn he ▸ hne))
  · intro a ha
    obtain ⟨hlog, c, hc, hν⟩ := h.archived a ha
    exact ⟨hlogged hlog, c, (hanon _).trans hc, hν⟩
  · intro n hn
    have hin := h.done_names hn
    have hsame := hother n (h.globbed n hin) fun he => hnew (he ▸ hin)
    exact (h.gone n hn).imp_left fun hnone => hsame.trans hnone
  · intro n hn hne
    exact h.anon n hn (hanon n ▸ hne)
  · refine ⟨h.todo.1, fun n hn => ⟨?_, (h.todo.2 n hn).2⟩⟩
    show n ∈ List.map Log.name _
    rw [hnames]
    exact List.mem_append_left _ (h.todo.2 n hn).1
  · intro n t todo hz
    exact ⟨hlogged (h.anonymizing n t todo hz).1, (h.anonymizing n t todo hz).2⟩

theorem Stored.glob {names : List Text} (h : Stored base LogName s) (hz : s.zipper = .idle) (hnodup : names.Nodup)
    (hmem : ∀ n, n ∈ names ↔ Globbed LogName n ∧ s.disk n ≠ none) : Stored base LogName { s with zipper := .next names } := by
  have hgone : ∀ n ∈ s.done, s.disk n = none := by
    intro n hn
    refine (h.gone n hn).resolve_right ?_
    rintro ⟨todo, he⟩
    rw [hz] at he
    cases he
  refine ⟨h.globbed, h.whole, h.present, h.archived, h.once, fun n hn => Or.inl (hgone n hn), fun n hn hne => Or.inl ?_, ?_, ?_, ?_, ?_,
    fun _ => h.ready (hz ▸ between_idle)⟩
  · refine (h.anon n hn hne).resolve_right ?_
    rintro ⟨t, todo, he⟩
    rw [hz] at he
    cases he
  · refine ⟨hnodup, fun n hn => ?_⟩
    obtain ⟨hglob, hne⟩ := (hmem n).mp hn
    exact ⟨h.present n hglob hne, fun hd => hne (hgone n hd)⟩
  · exact fun n todo he => by cases he
  · exact fun n t todo he => by cases he
  · exact fun n t todo he => by cases he

theorem Stored.logged (h : Stored base LogName s) (hn : n ∈ s.names) (hno : n ∉ s.done) : s.Logged n (catFile s.disk n) := by
  obtain ⟨l, hl, rfl⟩ := List.mem_map.mp hn
  refine ⟨l, hl, rfl, ?_⟩
  rw [catFile, h.whole l hl hno]

theorem Stored.openOut {df : Text} {todo : List Text} {r : Restart} (h : Stored base LogName s) (hz : s.zipper = .next (df :: todo))
    (hr : r.exit = s.fresh) : Stored base LogName { s with
      disk := Function.update s.disk (anonName df) (some (.gz []))
      zipper := .anonymizing df (catFile s.disk df) todo
      session := s.session.reopen base r
      fresh := false
      twice := s.twice || !s.fresh } := by
  obtain ⟨hnodup, htodo⟩ := h.todo
  rw [hz] at hnodup htodo
  obtain ⟨hfresh, hnodup⟩ := List.nodup_cons.mp hnodup
  obtain ⟨⟨hdf, hno⟩, htodo⟩ := List.forall_mem_cons.mp htodo
  have hglob : ∀ n, Globbed LogName n → Function.update s.disk (anonName df) (some (.gz [])) n = s.disk n :=
    fun n hn => Function.update_of_ne (glob_ne_anon hn) ..
  have hanon : ∀ n, Globbed LogName n → n ≠ df →
      Function.update s.disk (anonName df) (some (.gz [])) (anonName n) = s.disk (anonName n) :=
    fun n hn hne => Function.update_of_ne (fun he => hne (anonName_inj hn (h.globbed df hdf) he)) ..
  have htwice : (s.twice || !s.fresh) = false ↔ s.twice = false ∧ r.exit = true := by
    rw [hr, Bool.or_eq_false_iff, Bool.not_eq_false']
  refine ⟨h.globbed, ?_, ?_, ?_, h.once, ?_, ?_, ⟨hnodup, htodo⟩, ?_, ?_, ?_, fun hb => absurd rfl (hb _ _ _)⟩
  · intro l hl hd
    exact (hglob _ (h.globbed _ (List.mem_map_of_mem hl))).trans (h.whole l hl hd)
  · intro n hn hne
    exact h.present n hn (hglob n hn ▸ hne)
  · intro a ha
    obtain ⟨hlog, c, hc, hν⟩ := h.archived a ha
    have hne : a.1 ≠ df := fun he => hno (he ▸ List.mem_map_of_mem ha)
    exact ⟨hlog, c, (hanon _ (h.globbed _ hlog.mem_names) hne).trans hc, hν.mono fun ht => (htwice.mp ht).1⟩
  · intro n hn
    have hnone : s.disk n = none := by
      refine (h.gone n hn).resolve_right ?_
      rintro ⟨t, he⟩
      rw [hz] at he
      cases he
    exact Or.inl ((hglob n (h.globbed n (h.done_names hn))).trans hnone)
  · intro n hn hne
    by_cases he : n = df
    · rw [he]
      exact Or.inr ⟨_, _, rfl⟩
    · refine Or.inl ((h.anon n hn (hanon n hn he ▸ hne)).resolve_right ?_)
      rintro ⟨t, todo', hz'⟩
      rw [hz] at hz'
      cases hz'
  · exact fun n todo he => by cases he
  · intro n t todo' he
    cases he
    exact ⟨h.logged hdf hno, hno, hfresh⟩
  · exact fun _ _ _ _ => (h.ready (hz ▸ between_next _) r).mono htwice.mp

theorem Stored.closeOut {df t : Text} {todo : List Text} (h : Stored base LogName s) (hz : s.zipper = .anonymizing df t todo) :
    Stored base LogName { s with
      disk := Function.update s.disk (anonName df) (some (.gz (anonymizeStream s.session (readLines t)).2))
      zipper := .unlinking df todo
      session := (anonymizeStream s.session (readLines t)).1.close
      archived := s.archived ++ [(df, t)] } := by
  obtain ⟨hnodup, htodo⟩ := h.todo
  rw [hz] at hnodup htodo
  obtain ⟨hlogged, hno, hfresh⟩ := h.anonymizing df t todo hz
  have hdf := h.globbed df hlogged.mem_names
  obtain ⟨hknows, hrenders⟩ := (h.knows df t todo hz).file t
  have hkeys : (s.archived ++ [(df, t)]).flatMap (fun a => fileKeys a.2) = s.keys ++ fileKeys t := by
    rw [List.flatMap_append]
    exact congrArg (s.keys ++ ·) (List.append_nil _)
  have hdone : (s.archived ++ [(df, t)]).map Prod.fst = s.done ++ [df] := List.map_append
  have hin : ∀ {n : Text}, n ∈ (s.archived ++ [(df, t)]).map Prod.fst ↔ n ∈ s.done ∨ n = df := by
    intro n
    rw [hdone, List.mem_append, List.mem_singleton]
  have hglob : ∀ x n, Globbed LogName n → Function.update s.disk (anonName df) x n = s.disk n :=
    fun x n hn => Function.update_of_ne (glob_ne_anon hn) ..
  have hanon : ∀ x n, Globbed LogName n → n ≠ df → Function.update s.disk (anonName df) x (anonName n) = s.disk (anonName n) :=
    fun x n hn hne => Function.update_of_ne (fun he => hne (anonName_inj hn hdf he)) ..
  refine ⟨h.globbed, ?_, ?_, ?_, ?_, ?_, ?_, ?_, ?_, ?_, ?_, ?_⟩
  · intro l hl hd
    exact (hglob _ _ (h.globbed _ (List.mem_map_of_mem hl))).trans (h.whole l hl fun hd' => hd (hin.mpr (Or.inl hd')))
  · intro n hn hne
    exact h.present n hn (hglob _ n hn ▸ hne)
  · intro a ha
    rcases List.mem_append.mp ha with ha | ha
    · obtain ⟨hlog, c, hc, hν⟩ := h.archived a ha
      have hne : a.1 ≠ df := fun he => hno (he ▸ List.mem_map_of_mem ha)
      refine ⟨hlog, c, (hanon _ _ (h.globbed _ hlog.mem_names) hne).trans hc, ?_⟩
      show Renders _ ((s.archived ++ [(df, t)]).flatMap fun a => fileKeys a.2) _ _
      rw [hkeys]
      exact hν.later _
    · rw [List.mem_singleton.mp ha]
      refine ⟨hlogged, _, Function.update_self .., ?_⟩
      show Renders _ ((s.archived ++ [(df, t)]).flatMap fun a => fileKeys a.2) _ _
      rw [hkeys]
      exact hrenders
  · show (List.map Prod.fst _).Nodup
    rw [hdone]
    exact List.nodup_append'.mpr ⟨h.once, List.nodup_singleton df, List.disjoint_singleton.mpr hno⟩
  · intro n hn
    rcases hin.mp hn with hn | rfl
    · have hnone : s.disk n = none := by
        refine (h.gone n hn).resolve_right ?_
        rintro ⟨todo', he⟩
        rw [hz] at he
        cases he
      exact Or.inl ((hglob _ n (h.globbed n (h.done_names hn))).trans hnone)
    · exact Or.inr ⟨todo, rfl⟩
  · intro n hn hne
    refine Or.inl (hin.mpr ?_)
    by_cases he : n = df
    · exact Or.inr he
    · refine (h.anon n hn (hanon _ n hn he ▸ hne)).imp_right ?_
      rintro ⟨t', todo', hz'⟩
      rw [hz] at hz'
      cases hz'
      rfl
  · refine ⟨hnodup, fun n hn => ⟨(htodo n hn).1, fun hd => ?_⟩⟩
    rcases hin.mp hd with hd | rfl
    · exact (htodo n hn).2 hd
    · exact hfresh hn
  · intro n todo' he
    cases he
    exact hin.mpr (Or.inr rfl)
  · exact fun n t todo he => by cases he
  · exact fun n t todo he => by cases he
  · intro _ r
    show Session.Knows _ _ ((s.archived ++ [(df, t)]).flatMap fun a => fileKeys a.2)
    rw [hkeys]
    exact hknows.restart base r

theorem Stored.unlink {df : Text} {todo : List Text} (h : Stored base LogName s) (hz : s.zipper = .unlinking df todo) :
    Stored base LogName { s with disk := Function.update s.disk df none, zipper := .next todo } := by
  obtain ⟨hnodup, htodo⟩ := h.todo
  rw [hz] at hnodup htodo
  have hdf := h.unlinking df todo hz
  have hglob := h.globbed df (h.done_names hdf)
  have hanon : ∀ n, Function.update s.disk df none (anonName n) = s.disk (anonName n) :=
    fun n => Function.update_of_ne (glob_ne_anon hglob).symm ..
  refine ⟨h.globbed, ?_, ?_, ?_, h.once, ?_, ?_, ⟨hnodup, htodo⟩, ?_, ?_, ?_, fun _ => h.ready (hz ▸ between_unlinking df todo)⟩
  · intro l hl hd
    have hne : l.name ≠ df := fun he => hd (he ▸ hdf)
    exact (Function.update_of_ne hne ..).trans (h.whole l hl hd)
  · intro n hn hne
    refine h.present n hn fun hnone => hne ?_
    by_cases he : n = df
    · rw [he]
      exact Function.update_self ..
    · exact (Function.update_of_ne he ..).trans hnone
  · intro a ha
    obtain ⟨hlog, c, hc, hν⟩ := h.archived a ha
    exact ⟨hlog, c, (hanon _).trans hc, hν⟩
  · intro n hn
    refine Or.inl ?_
    by_cases he : n = df
    · rw [he]
      exact Function.update_self ..
    · refine (Function.update_of_ne he ..).trans ((h.gone n hn).resolve_right ?_)
      rintro ⟨todo', hz'⟩
      rw [hz] at hz'
      cases hz'
      exact he rfl
  · intro n hn hne
    refine Or.inl ((h.anon n hn (hanon n ▸ hne)).resolve_right ?_)
    rintro ⟨t, todo', hz'⟩
    rw [hz] at hz'
    cases hz'
  · exact fun n todo he => by cases he
  · exact fun n t todo he => by cases he
  · exact fun n t todo he => by cases he

theorem Stored.exit (h : Stored base LogName s) (hz : s.zipper = .next []) :
    Stored base LogName { s with zipper := .idle, fresh := true } := by
  refine ⟨h.globbed, h.whole, h.present, h.archived, h.once, fun n hn => Or.inl ?_, fun n hn hne => Or.inl ?_,
    ⟨List.nodup_nil, fun n hn => absurd hn List.not_mem_nil⟩, (fun n todo he => by cases he), (fun n t todo he => by cases he),
    (fun n t todo he => by cases he), fun _ => h.ready (hz ▸ between_next [])⟩
  · refine (h.gone n hn).resolve_right ?_
    rintro ⟨todo, he⟩
    rw [hz] at he
    cases he
  · refine (h.anon n hn hne).resolve_right ?_
    rintro ⟨t, todo, he⟩
    rw [hz] at he
    cases he

/-- As long as names are new no zipper finds an archive in its way. -/
theorem Stored.unskipped {df : Text} {todo : List Text} (h : Stored base LogName s) (hz : s.zipper = .next (df :: todo)) :
    s.disk (anonName df) = none := by
  have htodo := h.todo.2
  rw [hz] at htodo
  obtain ⟨hdf, hno⟩ := htodo df List.mem_cons_self
  by_contra hne
  rcases h.anon df (h.globbed df hdf) hne with hd | ⟨t, todo', hz'⟩
  · exact hno hd
  · rw [hz] at hz'
    cases hz'

/-! ## Steps and runs -/

/-- A write to a temporary file is none to a log or an archive. -/
theorem temp_apart (disk : Text → Option Entry) (x : Option Entry) (hn : Globbed LogName n) :
    Function.update disk (tempLog pid) x n = disk n ∧ Function.update disk (tempLog pid) x (anonName n) = disk (anonName n) :=
  ⟨Function.update_of_ne (glob_ne_temp hn) .., Function.update_of_ne anon_ne_temp ..⟩

theorem Step.kept (h : Step base LogName s s') (hnames : s'.names.Nodup) (ha : Accounted LogName s) (hs : Stored base LogName s) :
    Accounted LogName s' ∧ Stored base LogName s' := by
  cases h with
  | start pid hnew =>
    exact ⟨ha.start hnew, hs.frame (fun n hn => temp_apart s.disk _ hn) rfl rfl rfl rfl rfl⟩
  | write pid t u hpid hu =>
    exact ⟨ha.write hpid hu, hs.frame (fun n hn => temp_apart s.disk _ hn) rfl rfl rfl rfl rfl⟩
  | rotate pid tm u hpid hu =>
    refine ⟨ha.rotate tm hpid hu, hs.rotate fun hin => ?_⟩
    have hsplit : (s.logs ++ [(⟨pid, logName LogName tm ".txt".toList, u⟩ : Log)]).map Log.name =
      s.names ++ [logName LogName tm ".txt".toList] := List.map_append
    have hdisjoint := (List.nodup_append'.mp (hsplit ▸ hnames : (s.names ++ [logName LogName tm ".txt".toList]).Nodup)).2.2
    exact List.disjoint_singleton.mp hdisjoint hin
  | glob names hz hnodup hmem => exact ⟨ha.frame (fun _ => rfl) rfl rfl rfl, hs.glob hz hnodup hmem⟩
  | skip df todo hz hne => exact absurd (hs.unskipped hz) hne
  | openOut df todo r hz _ hr => exact ⟨ha.elsewhere (fun _ => anon_ne_temp) rfl rfl rfl rfl, hs.openOut hz hr⟩
  | closeOut df t todo hz => exact ⟨ha.elsewhere (fun _ => anon_ne_temp) rfl rfl rfl rfl, hs.closeOut hz⟩
  | unlink df todo hz =>
    have hdf := hs.globbed df (hs.done_names (hs.unlinking df todo hz))
    exact ⟨ha.elsewhere (fun _ => glob_ne_temp hdf) rfl rfl rfl rfl, hs.unlink hz⟩
  | exit hz => exact ⟨ha.frame (fun _ => rfl) rfl rfl rfl, hs.exit hz⟩

theorem Step.names (h : Step base LogName s s') : s.names <+: s'.names := by
  cases h with
  | rotate pid tm u hpid hu => exact List.IsPrefix.map Log.name (List.prefix_append s.logs _)
  | _ => exact List.prefix_refl _

theorem Reachable.kept (h : Reachable base LogName s) (hnames : s.names.Nodup) : Accounted LogName s ∧ Stored base LogName s := by
  induction h with
  | init =>
    refine ⟨⟨fun pid hp => absurd hp List.not_mem_nil, fun l hl => absurd hl List.not_mem_nil⟩, ?_⟩
    refine ⟨fun n hn => absurd hn List.not_mem_nil, fun l hl => absurd hl List.not_mem_nil, fun n _ hne => absurd rfl hne,
      fun a ha => absurd ha List.not_mem_nil, List.nodup_nil, fun n hn => absurd hn List.not_mem_nil, fun n _ hne => absurd rfl hne,
      ⟨List.nodup_nil, fun n hn => absurd hn List.not_mem_nil⟩, ?_, ?_, ?_, ?_⟩
    · exact fun n todo he => by cases he
    · exact fun n t todo he => by cases he
    · exact fun n t todo he => by cases he
    · exact fun _ r => (Session.knows_reopen_boot base r).mono fun _ => trivial
  | step _ hstep ih =>
    obtain ⟨ha, hs⟩ := ih (hnames.sublist hstep.names.sublist)
    exact hstep.kept hnames ha hs

/-- The naming that all archives are under. -/
def Relay.naming (s : Relay) : Kind → Text → Text := Anonymize.naming s.keys

theorem delivered (h : Reachable base LogName s) (hnames : s.names.Nodup) :
    (∀ pid ∈ s.dumpers, ∃ u, s.disk (tempLog pid) = some (.text u) ∧
      s.written pid = (s.logs.filter (·.pid = pid)).flatMap Log.text ++ u) ∧
    (∀ l ∈ s.logs, if l.name ∈ s.done
      then ∃ c, s.disk (anonName l.name) = some (.gz c) ∧
        (∃ φ : Text → Text, (∀ key, Alnum (φ key)) ∧ c = (readLines l.text).flatMap (renameLine (exceptFileids s.naming φ))) ∧
        (s.twice = false → c = (readLines l.text).flatMap (renameLine s.naming))
      else s.disk l.name = some (.text l.text)) ∧
    s.done.Nodup ∧ ∀ n ∈ s.done, n ∈ s.names := by
  obtain ⟨ha, hs⟩ := h.kept hnames
  refine ⟨ha.text, fun l hl => ?_, hs.once, fun n hn => hs.done_names hn⟩
  split
  · next hd =>
    obtain ⟨a, har, heq⟩ := List.mem_map.mp hd
    obtain ⟨⟨l', hl', hname, htext⟩, c, hc, hν⟩ := hs.archived a har
    -- the name tells which log it was
    have hsame : l' = l := List.inj_on_of_nodup_map hnames hl' hl (hname.trans heq)
    rw [← htext, hsame] at hν
    obtain ⟨φ, hφ, hothers⟩ := hν.others
    exact ⟨c, heq ▸ hc, ⟨φ, hφ, hothers _ (agrees_naming _)⟩, fun ht => hν.all ht _ (agrees_naming _)⟩
  · next hd => exact hs.whole l hl hd

/-- Steps one after the other. -/
inductive Run (base LogName : Text) : Relay → Relay → Prop
  | refl (s : Relay) : Run base LogName s s
  | step {s s' s'' : Relay} : Run base LogName s s' → Step base LogName s' s'' → Run base LogName s s''

theorem Run.reachable (h : Run base LogName s s') (hs : Reachable base LogName s) : Reachable base LogName s' := by
  induction h with
  | refl => exact hs
  | step _ hstep ih => exact .step ih hstep

theorem Run.names (h : Run base LogName s s') : s.names <+: s'.names := by
  induction h with
  | refl => exact List.prefix_refl _
  | step _ hstep ih => exact ih.trans hstep.names

/-- What the zipper has yet to archive. -/
def Zipper.pending : Zipper → List Text
  | .idle => []
  | .next todo => todo
  | .anonymizing df _ todo => df :: todo
  | .unlinking _ todo => todo

/-- What is pending is archived, or stays pending. -/
theorem Step.pending (h : Step base LogName s s') (hs : Stored base LogName s) (hn : n ∈ s.done ∨ n ∈ s.zipper.pending) :
    n ∈ s'.done ∨ n ∈ s'.zipper.pending := by
  cases h with
  | start pid hnew => exact hn
  | write pid t u hpid hu => exact hn
  | rotate pid tm u hpid hu => exact hn
  | glob names hz _ _ =>
    rw [hz] at hn
    exact Or.inl (hn.resolve_right List.not_mem_nil)
  | skip df todo hz hne => exact absurd (hs.unskipped hz) hne
  | openOut df todo r hz _ _ =>
    rw [hz] at hn
    exact hn
  | closeOut df t todo hz =>
    rw [hz] at hn
    have hdone : (s.archived ++ [(df, t)]).map Prod.fst = s.done ++ [df] := List.map_append
    show n ∈ (s.archived ++ [(df, t)]).map Prod.fst ∨ n ∈ todo
    rw [hdone, List.mem_append, List.mem_singleton]
    rcases hn with hn | hn
    · exact Or.inl (Or.inl hn)
    · exact (List.mem_cons.mp hn).imp_left Or.inr
  | unlink df todo hz =>
    rw [hz] at hn
    exact hn
  | exit hz =>
    rw [hz] at hn
    exact hn

theorem Run.pending (h : Run base LogName s s') (hs : Reachable base LogName s) (hnames : s'.names.Nodup)
    (hn : n ∈ s.done ∨ n ∈ s.zipper.pending) : n ∈ s'.done ∨ n ∈ s'.zipper.pending := by
  induction h with
  | refl => exact hn
  | step hrun hstep ih =>
    have hbefore := hnames.sublist hstep.names.sublist
    exact hstep.pending ((hrun.reachable hs).kept hbefore).2 (ih hbefore)

/-- When a zipper has ended the logs that were there when it started are archived and gone. -/
theorem archived_by_next {names : List Text} (h : Reachable base LogName s) (hz : s.zipper = .idle) (hnodup : names.Nodup)
    (hmem : ∀ n, n ∈ names ↔ Globbed LogName n ∧ s.disk n ≠ none) (hrun : Run base LogName { s with zipper := .next names } s')
    (hidle : s'.zipper = .idle) (hnames : s'.names.Nodup) : ∀ l ∈ s.logs, l.name ∈ s'.done ∧ s'.disk l.name = none := by
  intro l hl
  have hs := (h.kept (hnames.sublist hrun.names.sublist)).2
  have hstart : Reachable base LogName { s with zipper := .next names } := .step h (.glob s names hz hnodup hmem)
  have hin : l.name ∈ s.names := List.mem_map_of_mem hl
  have hfirst : l.name ∈ s.done ∨ l.name ∈ names := by
    by_cases hd : l.name ∈ s.done
    · exact Or.inl hd
    · exact Or.inr ((hmem _).mpr ⟨hs.globbed _ hin, by rw [hs.whole l hl hd]; exact Option.some_ne_none _⟩)
  have hlast := hrun.pending hstart hnames hfirst
  rw [hidle] at hlast
  have hd := hlast.resolve_right List.not_mem_nil
  refine ⟨hd, (((hrun.reachable hstart).kept hnames).2.gone _ hd).resolve_right ?_⟩
  rintro ⟨todo, he⟩
  rw [hidle] at he
  cases he

/-! ## A log and a zipper -/

/-- Noon of the last day of October 2006. -/
def noon : Tm := ⟨2006, 9, 31, 12, 0, 0⟩

def noonLog : Text := logName "log".toList noon ".txt".toList

/-- What nfsdump 7 wrote by then. -/
def noonText : Text := "1162296000.000000 0a000001.03ff 0a000002.0801 U R3 1 3 lookup status=0 pl = 8 con = 60 len = 60\n".toList

/-- The directory at noon. -/
def noonDisk : Text → Option Entry :=
  Function.update (Function.update (Function.update (Function.update (Function.update (fun _ => none) (tempLog 7) (some (.text [])))
    (tempLog 7) (some (.text noonText))) noonLog (some (.text noonText))) (logName "log".toList noon ".sum".toList) (some .summary))
    (tempLog 7) (some (.text []))

def atNoon : Relay :=
  ⟨noonDisk, [7], Function.update (Function.update (fun _ => []) 7 []) 7 noonText, [⟨7, noonLog, noonText⟩], .idle, .boot, true,
    false, []⟩

theorem reachable_atNoon : Reachable "anon".toList "log".toList atNoon := by
  have hself : ∀ (disk : Text → Option Entry) (x : Option Entry), Function.update disk (tempLog 7) x (tempLog 7) = x :=
    fun disk x => Function.update_self ..
  have hstart : Step "anon".toList "log".toList Relay.init
      ⟨Function.update (fun _ => none) (tempLog 7) (some (.text [])), [7], Function.update (fun _ => []) 7 [], [], .idle, .boot, true,
        false, []⟩ := .start _ 7 List.not_mem_nil
  have hwrite := (Reachable.init.step hstart).step (.write _ 7 noonText [] List.mem_cons_self (hself (fun _ => none) _))
  exact hwrite.step (.rotate _ 7 noon noonText List.mem_cons_self
    (hself (Function.update (fun _ => none) (tempLog 7) (some (.text []))) _))

theorem glob_atNoon (n : Text) : n ∈ [noonLog] ↔ Globbed "log".toList n ∧ atNoon.disk n ≠ none := by
  have hglob : Globbed "log".toList noonLog := globbed_log noon
  rw [List.mem_singleton]
  constructor
  · rintro rfl
    refine ⟨hglob, ?_⟩
    show noonDisk noonLog ≠ none
    rw [noonDisk, Function.update_of_ne (glob_ne_temp hglob), Function.update_of_ne (glob_ne_sum hglob), Function.update_self]
    exact Option.some_ne_none _
  · rintro ⟨hn, hne⟩
    by_contra he
    refine hne ?_
    show noonDisk n = none
    rw [noonDisk, Function.update_of_ne (glob_ne_temp hn), Function.update_of_ne (glob_ne_sum hn), Function.update_of_ne he,
      Function.update_of_ne (glob_ne_temp hn), Function.update_of_ne (glob_ne_temp hn)]

/-- A zipper that starts at noon comes to its end. -/
theorem run_atNoon : ∃ s, Run "anon".toList "log".toList { atNoon with zipper := .next [noonLog] } s ∧ s.zipper = .idle ∧
    s.logs = atNoon.logs := by
  have hnone : noonDisk (anonName noonLog) = none := by
    have hglob : Globbed "log".toList noonLog := globbed_log noon
    rw [noonDisk, Function.update_of_ne anon_ne_temp, Function.update_of_ne anon_ne_sum, Function.update_of_ne (glob_ne_anon hglob).symm,
      Function.update_of_ne anon_ne_temp, Function.update_of_ne anon_ne_temp]
  have hopen : Step "anon".toList "log".toList { atNoon with zipper := .next [noonLog] } _ :=
    .openOut _ noonLog [] (.empty true) rfl hnone rfl
  have hclose := ((Run.refl _).step hopen).step (.closeOut _ noonLog _ [] rfl)
  have hunlink := hclose.step (.unlink _ noonLog [] rfl)
  exact ⟨_, hunlink.step (.exit _ rfl), rfl, rfl⟩

theorem archived_by_next_noon : ∃ s', Run "anon".toList "log".toList { atNoon with zipper := .next [noonLog] } s' ∧
    ∀ l ∈ atNoon.logs, l.name ∈ s'.done ∧ s'.disk l.name = none := by
  obtain ⟨s', hrun, hidle, hlogs⟩ := run_atNoon
  refine ⟨s', hrun, archived_by_next reachable_atNoon rfl (List.nodup_singleton _) glob_atNoon hrun hidle ?_⟩
  rw [Relay.names, hlogs]
  exact List.nodup_singleton _

theorem delivered_noon : ∃ s, Reachable "anon".toList "log".toList s ∧ s.logs = atNoon.logs ∧
    (∀ pid ∈ s.dumpers, ∃ u, s.disk (tempLog pid) = some (.text u) ∧
      s.written pid = (s.logs.filter (·.pid = pid)).flatMap Log.text ++ u) ∧
    (∀ l ∈ s.logs, if l.name ∈ s.done
      then ∃ c, s.disk (anonName l.name) = some (.gz c) ∧
        (∃ φ : Text → Text, (∀ key, Alnum (φ key)) ∧ c = (readLines l.text).flatMap (renameLine (exceptFileids s.naming φ))) ∧
        (s.twice = false → c = (readLines l.text).flatMap (renameLine s.naming))
      else s.disk l.name = some (.text l.text)) ∧
    s.done.Nodup ∧ ∀ n ∈ s.done, n ∈ s.names := by
  obtain ⟨s, hrun, -, hlogs⟩ := run_atNoon
  have hglob : Step "anon".toList "log".toList atNoon _ := .glob _ [noonLog] rfl (List.nodup_singleton _) glob_atNoon
  have hreach := hrun.reachable (reachable_atNoon.step hglob)
  refine ⟨s, hreach, hlogs, delivered hreach ?_⟩
  rw [Relay.names, hlogs]
  exact List.nodup_singleton _

end Nfsdump.Driver
