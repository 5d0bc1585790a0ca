/-
  Trace — a computation as the list of what it does and what it returns, if it gets that
  far.

  A crash ends a computation: the events up to it stand, nothing follows them, and there
  is no value. Computations compose as a monad.

  Proved, for any events:
  - the monad laws;
  - `seen_bind`: what a partial view shows of a composed run;
  - `only_bind`, `seen_eq_nil`: a run does only what its parts do, and a view blind to that
    shows nothing of it;
  - `erase_bind`, `erase_embed`: erasing the events a view does not show commutes with
    composition, so a computation with probes in it is the one without them.
-/

import Mathlib.Tactic

structure Trace (ε α : Type) where
  events : List ε
  /-- `none` once the computation has crashed. -/
  val : Option α

namespace Trace

variable {ε α β γ : Type}

protected def pure (a : α) : Trace ε α := ⟨[], some a⟩

protected def bind (x : Trace ε α) (f : α → Trace ε β) : Trace ε β :=
  match x.val with
  | none => ⟨x.events, none⟩
  | some a => ⟨x.events ++ (f a).events, (f a).val⟩

instance : Monad (Trace ε) where
  pure := Trace.pure
  bind := Trace.bind

def crash : Trace ε α := ⟨[], none⟩

def emit (es : List ε) : Trace ε Unit := ⟨es, some ()⟩

/-- `if (b) x;` -/
def when (b : Bool) (x : Trace ε Unit) : Trace ε Unit := if b then x else pure ()

@[simp] theorem when_true (x : Trace ε Unit) : when true x = x := rfl
@[simp] theorem when_false (x : Trace ε Unit) : when false x = pure () := rfl

@[simp] theorem pure_events (a : α) : (pure a : Trace ε α).events = [] := rfl
@[simp] theorem pure_val (a : α) : (pure a : Trace ε α).val = some a := rfl
@[simp] theorem crash_events : (crash : Trace ε α).events = [] := rfl
@[simp] theorem crash_val : (crash : Trace ε α).val = none := rfl
@[simp] theorem emit_events (es : List ε) : (emit es).events = es := rfl
@[simp] theorem emit_val (es : List ε) : (emit es).val = some () := rfl

theorem bind_some {x : Trace ε α} {a : α} (f : α → Trace ε β) (h : x.val = some a) :
    x >>= f = ⟨x.events ++ (f a).events, (f a).val⟩ := by
  show Trace.bind x f = _
  rw [Trace.bind, h]

theorem bind_none {x : Trace ε α} (f : α → Trace ε β) (h : x.val = none) : x >>= f = ⟨x.events, none⟩ := by
  show Trace.bind x f = _
  rw [Trace.bind, h]

theorem val_bind {x : Trace ε α} {a : α} (f : α → Trace ε β) (h : x.val = some a) : (x >>= f).val = (f a).val := by
  rw [bind_some f h]

theorem of_val_bind {x : Trace ε α} {f : α → Trace ε β} {b : β} (h : (x >>= f).val = some b) :
    ∃ a, x.val = some a ∧ (f a).val = some b := by
  cases hx : x.val with
  | none => rw [bind_none f hx] at h; cases h
  | some a => exact ⟨a, rfl, by rwa [val_bind f hx] at h⟩

theorem emit_bind (es : List ε) (f : Unit → Trace ε β) : emit es >>= f = ⟨es ++ (f ()).events, (f ()).val⟩ := rfl

/-! ## The monad laws -/

protected theorem bind_pure (x : Trace ε α) : x >>= pure = x := by
  obtain ⟨es, v⟩ := x
  cases v with
  | none => rfl
  | some a => exact congrArg (Trace.mk · (some a)) (List.append_nil es)

protected theorem bind_assoc (x : Trace ε α) (f : α → Trace ε β) (g : β → Trace ε γ) :
    x >>= f >>= g = x >>= fun a => f a >>= g := by
  cases hx : x.val with
  | none => rw [bind_none f hx, bind_none _ hx, bind_none g rfl]
  | some a =>
    rw [bind_some f hx, bind_some _ hx]
    cases hf : (f a).val with
    | none => rw [bind_none g rfl, bind_none g hf]
    | some b => rw [bind_some g rfl, bind_some g hf, List.append_assoc]

instance : LawfulMonad (Trace ε) := LawfulMonad.mk' (Trace ε) Trace.bind_pure (fun _ _ => rfl) Trace.bind_assoc

/-! ## Predicates on events -/

/-- Every event, up to the end or a crash, satisfies `P`. -/
def Only (P : ε → Prop) (x : Trace ε α) : Prop := ∀ e ∈ x.events, P e

@[simp] theorem only_pure (P : ε → Prop) (a : α) : Only P (pure a : Trace ε α) := by simp [Only]

@[simp] theorem only_crash (P : ε → Prop) : Only P (crash : Trace ε α) := by simp [Only]

@[simp] theorem only_emit {P : ε → Prop} {es : List ε} : Only P (emit es) ↔ ∀ e ∈ es, P e := by simp [Only]

@[simp] theorem only_bind {P : ε → Prop} {x : Trace ε α} {f : α → Trace ε β} :
    Only P (x >>= f) ↔ Only P x ∧ ∀ a, x.val = some a → Only P (f a) := by
  cases h : x.val with
  | none => rw [bind_none f h]; simp [Only]
  | some a =>
    rw [bind_some f h]
    simp only [Only, List.mem_append, Option.some.injEq]
    constructor
    · intro hP
      refine ⟨fun e he => hP e (Or.inl he), ?_⟩
      rintro _ rfl e he
      exact hP e (Or.inr he)
    · rintro ⟨hx, hf⟩ e he
      exact he.elim (hx e) (hf a rfl e)

theorem only_bind_some {P : ε → Prop} {x : Trace ε α} {f : α → Trace ε β} {a : α} (h : x.val = some a) :
    Only P (x >>= f) ↔ Only P x ∧ Only P (f a) := by
  rw [only_bind]
  simp [h]

theorem Only.mono {P Q : ε → Prop} {x : Trace ε α} (h : Only P x) (hPQ : ∀ e, P e → Q e) : Only Q x :=
  fun e he => hPQ e (h e he)

@[simp] theorem only_map {P : ε → Prop} {x : Trace ε α} {g : α → β} : Only P (g <$> x) ↔ Only P x := by
  rw [← bind_pure_comp, only_bind]
  simp

@[simp] theorem only_ite {P : ε → Prop} {c : Prop} [Decidable c] {x y : Trace ε α} :
    Only P (if c then x else y) ↔ (c → Only P x) ∧ (¬ c → Only P y) := by
  by_cases h : c <;> simp [h]

@[simp] theorem only_when {P : ε → Prop} {b : Bool} {x : Trace ε Unit} : Only P (Trace.when b x) ↔ (b = true → Only P x) := by
  cases b <;> simp

/-! ## Partial views -/

/-- What of the events a partial view shows. -/
def seen (view : ε → Option γ) (x : Trace ε α) : List γ := x.events.filterMap view

@[simp] theorem seen_pure (view : ε → Option γ) (a : α) : seen view (pure a : Trace ε α) = [] := rfl
@[simp] theorem seen_crash (view : ε → Option γ) : seen view (crash : Trace ε α) = [] := rfl
@[simp] theorem seen_emit (view : ε → Option γ) (es : List ε) : seen view (emit es) = es.filterMap view := rfl

theorem seen_bind_some (view : ε → Option γ) {x : Trace ε α} {a : α} (f : α → Trace ε β) (h : x.val = some a) :
    seen view (x >>= f) = seen view x ++ seen view (f a) := by
  rw [bind_some f h]; exact List.filterMap_append

theorem seen_bind_none (view : ε → Option γ) {x : Trace ε α} (f : α → Trace ε β) (h : x.val = none) :
    seen view (x >>= f) = seen view x := by
  rw [bind_none f h]; rfl

@[simp] theorem seen_emit_bind (view : ε → Option γ) (es : List ε) (f : Unit → Trace ε β) :
    seen view (emit es >>= f) = es.filterMap view ++ seen view (f ()) := by
  rw [seen_bind_some view f (emit_val es)]; rfl

/-- A view shows nothing of a run whose events it does not show. -/
theorem seen_eq_nil {view : ε → Option γ} {x : Trace ε α} (h : Only (view · = none) x) : seen view x = [] :=
  List.filterMap_eq_nil_iff.mpr h

/-! ## Probes -/

/-- The same run, its events among others. -/
def embed (g : ε → γ) (x : Trace ε α) : Trace γ α := ⟨x.events.map g, x.val⟩

/-- The run with only the events a partial view shows. -/
def erase (view : ε → Option γ) (x : Trace ε α) : Trace γ α := ⟨seen view x, x.val⟩

theorem erase_embed {g : ε → γ} {view : γ → Option ε} (h : ∀ e, view (g e) = some e) (x : Trace ε α) :
    erase view (embed g x) = x := by
  have hevents : (x.events.map g).filterMap view = x.events := by
    rw [List.filterMap_map, show view ∘ g = some from funext h, List.filterMap_some]
  exact congrArg (Trace.mk · x.val) hevents

@[simp] theorem erase_pure (view : ε → Option γ) (a : α) : erase view (pure a : Trace ε α) = pure a := rfl

theorem erase_bind (view : ε → Option γ) (x : Trace ε α) (f : α → Trace ε β) :
    erase view (x >>= f) = erase view x >>= fun a => erase view (f a) := by
  cases hx : x.val with
  | none =>
    rw [bind_none (x := erase view x) _ hx, erase, seen_bind_none view f hx, bind_none f hx]
    rfl
  | some a =>
    rw [bind_some (x := erase view x) _ hx, erase, seen_bind_some view f hx, val_bind f hx]
    rfl

/-- A probe leaves no mark. -/
theorem erase_emit_bind {view : ε → Option γ} {es : List ε} (h : ∀ e ∈ es, view e = none) (f : Unit → Trace ε β) :
    erase view (emit es >>= f) = erase view (f ()) := by
  rw [erase, seen_emit_bind, List.filterMap_eq_nil_iff.mpr h, List.nil_append, val_bind f (emit_val es)]
  rfl

end Trace
