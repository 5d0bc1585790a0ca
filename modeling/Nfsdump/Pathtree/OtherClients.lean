/-
  Nfsdump.Pathtree.OtherClients — `Parser` does not depend on what clients are called.

  `OtherClients` rows differ, in the columns `Parser` reads, in their addresses only. Where
  the keys of calls are as different under the other addresses as under these (`Apart`), the
  calls that wait stay `Alike` row by row (`Alike.step`), and so the same pairs come out
  (`Alike.run`).
-/

import Nfsdump.Pathtree.Matchers

namespace Nfsdump.Pathtree

/-- Row for row what `Parser` reads: other addresses, everything else the same. -/
structure OtherClients (A : Set Cell) (φ : Cell → Cell) (row row' : Row) : Prop where
  long : OFFSET.PARAM_START ≤ row.length
  long' : OFFSET.PARAM_START ≤ row'.length
  time : cell row' OFFSET.TIME = cell row OFFSET.TIME
  dir : cell row' OFFSET.DIRECTION = cell row OFFSET.DIRECTION
  xid : cell row' OFFSET.XID = cell row OFFSET.XID
  op : cell row' OFFSET.OP = cell row OFFSET.OP
  src : cell row OFFSET.SRC ∈ A
  dst : cell row OFFSET.DST ∈ A
  src' : cell row' OFFSET.SRC = φ (cell row OFFSET.SRC)
  dst' : cell row' OFFSET.DST = φ (cell row OFFSET.DST)

/-- Keys are the same under the other addresses iff they are under these. -/
def Apart (A : Set Cell) (φ : Cell → Cell) : Prop :=
  ∀ c ∈ A, ∀ c' ∈ A, ∀ xid xid', callKey (φ c) xid = callKey (φ c') xid' ↔ callKey c xid = callKey c' xid'

/-- The same pair of rows. -/
structure SamePair (R : Row → Row → Prop) (m m' : Matched) : Prop where
  op : m'.op = m.op
  call : R m.call m'.call
  reply : R m.reply m'.reply

structure SameCall (R : Row → Row → Prop) (c c' : Call) : Prop where
  row : R c.row c'.row
  timestamp : c'.timestamp = c.timestamp

/-- The same calls wait, under other clients. -/
structure Alike (A : Set Cell) (φ : Cell → Cell) (R : Row → Row → Prop) (s s' : Parser) : Prop where
  nextCleanup : s'.nextCleanup = s.nextCleanup
  calls : ∀ client ∈ A, ∀ xid, Option.Rel (SameCall R) (s.calls (callKey client xid)) (s'.calls (callKey (φ client) xid))

variable {A : Set Cell} {φ : Cell → Cell} {R : Row → Row → Prop} {s s' : Parser} {row row' : Row}

theorem alike_init : Alike A φ R Parser.init Parser.init := ⟨rfl, fun _ _ _ => .none⟩

theorem rel_filter {p p' : Call → Bool} {c c' : Option Call} (h : Option.Rel (SameCall R) c c')
    (hp : ∀ a a', SameCall R a a' → p' a' = p a) : Option.Rel (SameCall R) (c.filter p) (c'.filter p') := by
  cases h with
  | none => exact .none
  | some h =>
    rw [Option.filter_some, Option.filter_some, hp _ _ h]
    split
    · exact .some h
    · exact .none

theorem Alike.cleanup (h : Alike A φ R s s') (timestamp : Num) : Alike A φ R (s.cleanup timestamp) (s'.cleanup timestamp) := by
  unfold Parser.cleanup
  rw [h.nextCleanup]
  split
  · exact h
  · refine ⟨rfl, fun client hc xid => rel_filter (h.calls client hc xid) fun a a' ha => ?_⟩
    rw [ha.timestamp]

theorem Alike.processCall (hA : Apart A φ) (h : Alike A φ R s s') (hr : OtherClients A φ row row') (hR : R row row') :
    Alike A φ R (s.processCall row) (s'.processCall row') := by
  unfold Parser.processCall
  rw [hr.op, hr.time, hr.src', hr.xid]
  dsimp only
  split
  · exact h
  have hclean := h.cleanup (parseInt (cell row OFFSET.TIME))
  refine ⟨hclean.nextCleanup, fun client hc xid => ?_⟩
  dsimp only
  by_cases hkey : callKey client xid = callKey (cell row OFFSET.SRC) (cell row OFFSET.XID)
  · rw [if_pos hkey, if_pos ((hA client hc _ hr.src _ _).mpr hkey)]
    exact .some ⟨hR, rfl⟩
  · rw [if_neg hkey, if_neg fun he => hkey ((hA client hc _ hr.src _ _).mp he)]
    exact hclean.calls client hc xid

theorem Alike.processReply (hA : Apart A φ) (h : Alike A φ R s s') (hr : OtherClients A φ row row') (hR : R row row') :
    Alike A φ R (s.processReply row).1 (s'.processReply row').1 ∧
      Option.Rel (SamePair R) (s.processReply row).2 (s'.processReply row').2 := by
  have hwait := h.calls _ hr.dst (cell row OFFSET.XID)
  unfold Parser.processReply
  rw [hr.dst', hr.xid, hr.op]
  dsimp only
  rcases hc : s.calls (callKey (cell row OFFSET.DST) (cell row OFFSET.XID)) with _ | call
  · rw [hc] at hwait
    cases hc' : s'.calls (callKey (φ (cell row OFFSET.DST)) (cell row OFFSET.XID)) with
    | none => exact ⟨h, .none⟩
    | some call' =>
      rw [hc'] at hwait
      cases hwait
  · rw [hc] at hwait
    cases hc' : s'.calls (callKey (φ (cell row OFFSET.DST)) (cell row OFFSET.XID)) with
    | none =>
      rw [hc'] at hwait
      cases hwait
    | some call' =>
      rw [hc'] at hwait
      have hsame := Option.rel_some_some.mp hwait
      refine ⟨⟨h.nextCleanup, fun client hclient xid => ?_⟩, .some ⟨rfl, hsame.row, hR⟩⟩
      dsimp only
      by_cases hkey : callKey client xid = callKey (cell row OFFSET.DST) (cell row OFFSET.XID)
      · rw [if_pos hkey, if_pos ((hA client hclient _ hr.dst _ _).mpr hkey)]
        exact .none
      · rw [if_neg hkey, if_neg fun he => hkey ((hA client hclient _ hr.dst _ _).mp he)]
        exact h.calls client hclient xid

theorem Alike.step (hA : Apart A φ) (h : Alike A φ R s s') (hr : OtherClients A φ row row') (hR : R row row') :
    Alike A φ R (s.processRow row).1 (s'.processRow row').1 ∧ Option.Rel (SamePair R) (s.processRow row).2 (s'.processRow row').2 := by
  unfold Parser.processRow
  rw [if_neg (Nat.not_lt.mpr hr.long), if_neg (Nat.not_lt.mpr hr.long'), hr.dir]
  split
  · exact ⟨h.processCall hA hr hR, .none⟩
  split
  · exact h.processReply hA hr hR
  · exact ⟨h, .none⟩

theorem rel_toList {α β : Type} {P : α → β → Prop} {x : Option α} {y : Option β} (h : Option.Rel P x y) :
    List.Forall₂ P x.toList y.toList := by
  cases h with
  | none => exact .nil
  | some h => exact .cons h .nil

theorem Alike.run (hA : Apart A φ) (hR : ∀ row row', R row row' → OtherClients A φ row row') {rows rows' : List Row}
    (hrows : List.Forall₂ R rows rows') (h : Alike A φ R s s') : List.Forall₂ (SamePair R) (s.run rows) (s'.run rows') := by
  induction hrows generalizing s s' with
  | nil => exact .nil
  | cons hr _ ih =>
    obtain ⟨hnext, hpair⟩ := h.step hA (hR _ _ hr) hr
    rw [Parser.run, Parser.run]
    exact List.rel_append (rel_toList hpair) (ih hnext)

instance passedOverDecidable (row : Row) : Decidable (PassedOver row) := inferInstanceAs (Decidable (_ ∨ _ ∧ _))

/-- Rows that are passed over may be left out. -/
theorem run_filter (rows : List Row) (s : Parser) : s.run (rows.filter fun row => ¬ PassedOver row) = s.run rows := by
  induction rows generalizing s with
  | nil => rfl
  | cons row rows ih =>
    by_cases h : PassedOver row
    · rw [List.filter_cons_of_neg (by simp [h]), ih, Parser.run, processRow_passedOver h]
      rfl
    · rw [List.filter_cons_of_pos (by simp [h]), Parser.run, Parser.run, ih]

end Nfsdump.Pathtree
