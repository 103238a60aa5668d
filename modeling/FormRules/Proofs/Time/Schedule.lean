import FormRules.Time.Schedule
import Mathlib.Data.Int.Order.Basic
import Mathlib.Data.Multiset.Filter
import Mathlib.Tactic.SplitIfs

/-!
# Lemmas on schedules

Which tasks are pending after one has been scheduled, dropped or taken out to be run. Serial numbers are
given out once, so a timer that is known to belong to a task drops that task and no other.
-/

namespace FormRules

namespace Schedule
variable {τ : Type} {s t : Schedule τ} {a b : Appointment τ} {l : List (Appointment τ)}

theorem mem_insert : b ∈ insert a l ↔ b = a ∨ b ∈ l := by
  induction l with
  | nil => simp [insert]
  | cons c l ih =>
    rw [insert]
    split_ifs
    · rw [List.mem_cons, ih, List.mem_cons, or_left_comm]
    · rw [List.mem_cons]

theorem insert_perm (a : Appointment τ) (l : List (Appointment τ)) : (insert a l).Perm (a :: l) := by
  induction l with
  | nil => rfl
  | cons b l ih =>
    rw [insert]
    split_ifs
    · exact (ih.cons b).trans (.swap a b l)
    · rfl

/-! ## Taking a task out -/

/-- The schedule `t` is left when the task of `a` is taken out of `s` to be run. -/
structure Takes (s : Schedule τ) (a : Appointment τ) (t : Schedule τ) : Prop where
  pending : ∃ l r, s.pending = l ++ a :: r ∧ t.pending = l ++ r
  issued : t.issued = s.issued
  now : t.now = max s.now a.due

theorem takes_of_next? {limit : Option Int} (h : s.next? limit = some (a, t)) : s.Takes a t := by
  unfold next? at h
  split at h
  · next b rest hs =>
    split_ifs at h
    obtain ⟨rfl, rfl⟩ := Prod.mk.inj (Option.some.inj h)
    exact ⟨⟨[], rest, hs, rfl⟩, rfl, rfl⟩
  · cases h

theorem takes_of_take? {serial : Nat} (h : s.take? serial = some (a, t)) : s.Takes a t := by
  unfold take? at h
  split at h
  · next b hb =>
    obtain ⟨rfl, rfl⟩ := Prod.mk.inj (Option.some.inj h)
    obtain ⟨hp, l, r, hs, hl⟩ := List.find?_eq_some_iff_append.mp hb
    refine ⟨⟨l, r, hs, ?_⟩, rfl, rfl⟩
    show s.pending.eraseP _ = _
    rw [hs, List.eraseP_append_right _ fun x hx => by simpa using hl x hx, List.eraseP_cons, hp]
    rfl
  · cases h

theorem Takes.now_le (h : s.Takes a t) : s.now ≤ t.now := h.now ▸ le_max_left _ _

theorem Takes.due_le (h : s.Takes a t) : a.due ≤ t.now := h.now ▸ le_max_right _ _

theorem Takes.mem (h : s.Takes a t) : a ∈ s.pending := by
  obtain ⟨l, r, hs, -⟩ := h.pending
  rw [hs]
  exact List.mem_append_right _ List.mem_cons_self

theorem Takes.mem_of_mem (h : s.Takes a t) (hb : b ∈ t.pending) : b ∈ s.pending := by
  obtain ⟨l, r, hs, ht⟩ := h.pending
  rw [ht, List.mem_append] at hb
  rw [hs, List.mem_append, List.mem_cons]
  tauto

/-! ## Timers and their tasks -/

/-- Whatever is pending under a serial number that has been given out is this task. -/
structure Owns (s : Schedule τ) (serial : Nat) (task : τ) : Prop where
  issued : serial < s.issued
  task_eq : ∀ a ∈ s.pending, a.serial = serial → a.task = task

/-- No serial number is pending that has not been given out. -/
def Ordered (s : Schedule τ) : Prop := ∀ a ∈ s.pending, a.serial < s.issued

theorem Ordered.after (h : s.Ordered) (delay : Int) (task : τ) : (s.after delay task).Ordered := by
  intro a ha
  obtain rfl | ha := mem_insert.mp ha
  · exact Nat.lt_succ_self _
  · exact Nat.lt_succ_of_lt (h a ha)

theorem Ordered.cancel (h : s.Ordered) (serial : Nat) : (s.cancel serial).Ordered :=
  fun a ha => h a (List.mem_filter.mp ha).1

theorem Ordered.takes (h : s.Ordered) (ht : s.Takes a t) : t.Ordered := by
  intro b hb
  rw [ht.issued]
  exact h b (ht.mem_of_mem hb)

theorem Ordered.owns_after (h : s.Ordered) (delay : Int) (task : τ) :
    (s.after delay task).Owns s.issued task := by
  refine ⟨Nat.lt_succ_self _, fun a ha hs => ?_⟩
  obtain rfl | ha := mem_insert.mp ha
  · rfl
  · exact absurd hs (Nat.ne_of_lt (h a ha))

variable {n : Nat} {task task' : τ}

theorem Owns.after (h : s.Owns n task) (delay : Int) (task' : τ) : (s.after delay task').Owns n task := by
  refine ⟨Nat.lt_succ_of_lt h.issued, fun a ha hs => ?_⟩
  obtain rfl | ha := mem_insert.mp ha
  · exact absurd hs (Nat.ne_of_gt h.issued)
  · exact h.task_eq a ha hs

theorem Owns.cancel (h : s.Owns n task) (serial : Nat) : (s.cancel serial).Owns n task :=
  ⟨h.issued, fun a ha => h.task_eq a (List.mem_filter.mp ha).1⟩

theorem Owns.takes (h : s.Owns n task) (ht : s.Takes a t) : t.Owns n task :=
  ⟨by rw [ht.issued]; exact h.issued, fun b hb => h.task_eq b (ht.mem_of_mem hb)⟩

/-- What belongs to tasks when one schedule follows another goes on to do so. -/
structure Extends (s t : Schedule τ) : Prop where
  ordered : s.Ordered → t.Ordered
  owns : ∀ {n task}, s.Owns n task → t.Owns n task

theorem extends_after (s : Schedule τ) (delay : Int) (task : τ) : s.Extends (s.after delay task) :=
  ⟨fun h => h.after delay task, fun h => h.after delay task⟩

theorem extends_cancel (s : Schedule τ) (serial : Nat) : s.Extends (s.cancel serial) :=
  ⟨fun h => h.cancel serial, fun h => h.cancel serial⟩

theorem Takes.extends (h : s.Takes a t) : s.Extends t := ⟨fun ho => ho.takes h, fun ho => ho.takes h⟩

/-! ## What is pending, read off by a function -/

variable {β : Type} {p : Appointment τ → Option β} {x : β}

/-- What a function makes of the appointments. -/
def collect (s : Schedule τ) (p : Appointment τ → Option β) : Multiset β :=
  (s.pending : Multiset (Appointment τ)).filterMap p

theorem collect_after_none {delay : Int} (h : p ⟨s.now + max delay 0, s.issued, task⟩ = none) :
    (s.after delay task).collect p = s.collect p := by
  have hi := Multiset.coe_eq_coe.mpr (insert_perm ⟨s.now + max delay 0, s.issued, task⟩ s.pending)
  unfold collect after
  rw [hi, ← Multiset.cons_coe, Multiset.filterMap_cons_none _ _ h]

theorem collect_after_some {delay : Int} (h : p ⟨s.now + max delay 0, s.issued, task⟩ = some x) :
    (s.after delay task).collect p = x ::ₘ s.collect p := by
  have hi := Multiset.coe_eq_coe.mpr (insert_perm ⟨s.now + max delay 0, s.issued, task⟩ s.pending)
  unfold collect after
  rw [hi, ← Multiset.cons_coe, Multiset.filterMap_cons_some _ _ _ h]

theorem Takes.coe (h : s.Takes a t) : (s.pending : Multiset (Appointment τ)) = a ::ₘ t.pending := by
  obtain ⟨l, r, hs, ht⟩ := h.pending
  rw [hs, ht, Multiset.cons_coe]
  exact Multiset.coe_eq_coe.mpr List.perm_middle

theorem Takes.collect_none (h : s.Takes a t) (hp : p a = none) : t.collect p = s.collect p := by
  unfold collect
  rw [h.coe, Multiset.filterMap_cons_none _ _ hp]

theorem Takes.collect_some (h : s.Takes a t) (hp : p a = some x) : s.collect p = x ::ₘ t.collect p := by
  unfold collect
  rw [h.coe, Multiset.filterMap_cons_some _ _ _ hp]

theorem collect_after (s : Schedule τ) (delay : Int) (task : τ) (p : Appointment τ → Option β) :
    (s.after delay task).collect p = ((p ⟨s.now + max delay 0, s.issued, task⟩).toList : Multiset β) + s.collect p := by
  cases h : p ⟨s.now + max delay 0, s.issued, task⟩ with
  | none =>
    rw [collect_after_none h]
    exact (Multiset.zero_add _).symm
  | some x => exact collect_after_some h

theorem Takes.collect (h : s.Takes a t) (p : Appointment τ → Option β) :
    s.collect p = ((p a).toList : Multiset β) + t.collect p := by
  cases hp : p a with
  | none =>
    rw [h.collect_none hp]
    exact (Multiset.zero_add _).symm
  | some x => exact h.collect_some hp

/-- Dropping a timer drops none of the tasks that it does not belong to. -/
theorem Owns.collect_cancel (h : s.Owns n task) (hp : ∀ a : Appointment τ, a.task = task → p a = none) :
    (s.cancel n).collect p = s.collect p := by
  unfold collect Schedule.cancel
  rw [Multiset.filterMap_coe, Multiset.filterMap_coe, List.filterMap_filter]
  congr 1
  refine List.filterMap_congr fun a ha => ?_
  by_cases hs : a.serial = n
  · simp [hs, hp a (h.task_eq a ha hs)]
  · simp [hs]

/-! ## The pending tasks of one kind -/

variable {q : τ → Bool} {delay : Int}

/-- The appointments for tasks of a kind. -/
def waiting (s : Schedule τ) (q : τ → Bool) : Multiset (Appointment τ) :=
  s.collect fun a => if q a.task then some a else none

theorem mem_waiting : a ∈ s.waiting q ↔ a ∈ s.pending ∧ q a.task = true := by
  rw [waiting, collect, Multiset.mem_filterMap]
  simp [Option.ite_none_right_eq_some, and_comm]

theorem waiting_after (h : q task = true) :
    (s.after delay task).waiting q = ⟨s.now + max delay 0, s.issued, task⟩ ::ₘ s.waiting q :=
  collect_after_some (if_pos h)

theorem waiting_after_of_not (h : q task = false) : (s.after delay task).waiting q = s.waiting q :=
  collect_after_none (by simp [h])

theorem Takes.waiting (ht : s.Takes a t) (h : q a.task = true) : s.waiting q = a ::ₘ t.waiting q :=
  ht.collect_some (if_pos h)

theorem Takes.waiting_of_not (ht : s.Takes a t) (h : q a.task = false) : t.waiting q = s.waiting q :=
  ht.collect_none (by simp [h])

/-- Dropping a timer drops what waits under its serial number. -/
theorem waiting_cancel (s : Schedule τ) (n : Nat) (q : τ → Bool) :
    (s.cancel n).waiting q = (s.waiting q).filter (·.serial ≠ n) := by
  unfold waiting collect cancel
  rw [Multiset.filterMap_coe, Multiset.filterMap_coe, Multiset.filter_coe, List.filterMap_filter, List.filter_filterMap]
  congr 1
  refine List.filterMap_congr fun a _ => ?_
  by_cases hq : q a.task = true
  · by_cases hn : a.serial = n
    · simp [Option.filter, hq, hn]
    · simp [Option.filter, hq, hn]
  · simp [hq]

theorem Owns.waiting_cancel (h : s.Owns n task) (hq : q task = false) : (s.cancel n).waiting q = s.waiting q :=
  h.collect_cancel fun a ha => by simp [ha, hq]

/-- From one schedule to the next, time does not go back and the pending tasks of a kind stay the same. -/
structure Spares (q : τ → Bool) (s t : Schedule τ) : Prop where
  now_le : s.now ≤ t.now
  waiting : t.waiting q = s.waiting q

theorem Spares.refl (q : τ → Bool) (s : Schedule τ) : s.Spares q s := ⟨le_rfl, rfl⟩

theorem Spares.trans {u : Schedule τ} (h : s.Spares q t) (h' : t.Spares q u) : s.Spares q u :=
  ⟨h.now_le.trans h'.now_le, h'.waiting.trans h.waiting⟩

theorem spares_after (s : Schedule τ) (delay : Int) (h : q task = false) : s.Spares q (s.after delay task) :=
  ⟨le_rfl, waiting_after_of_not h⟩

theorem Takes.spares (ht : s.Takes a t) (h : q a.task = false) : s.Spares q t := ⟨ht.now_le, ht.waiting_of_not h⟩

theorem Owns.spares_cancel (ho : s.Owns n task) (h : q task = false) : s.Spares q (s.cancel n) :=
  ⟨le_rfl, ho.waiting_cancel h⟩

end Schedule
end FormRules
