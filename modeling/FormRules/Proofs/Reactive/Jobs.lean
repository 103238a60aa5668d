import FormRules.Reactive.Bench
import Mathlib.Data.Multiset.MapFold

/-!
# What becomes of jobs

The jobs of a switch are numbered in the order in which they are started. Each ends once, in whatever order; one that
ends delivers what it came to if it is still the newest one. `Runs` says what can have happened by then: how many jobs
have been started, which of them are in flight, and the history of events, the last one first.
-/

namespace FormRules

namespace JobEvent

/-- What a delivery delivers: the number of the job, its value and its result. -/
def delivery? : JobEvent → Option (Nat × Value × Outcome Value)
  | .delivered job v r => some (job, v, r)
  | .started _ _ | .ended _ _ => none

/-- The deliveries in a history, the last one first. -/
def deliveries (h : List JobEvent) : List (Nat × Value × Outcome Value) := h.filterMap delivery?

/-- Among what has happened, the last start is that of a job for a value. -/
def Newest (h : List JobEvent) (job : Nat) (v : Value) : Prop :=
  ∃ later earlier, h = later ++ .started job v :: earlier ∧ ∀ e ∈ later, ∀ i w, e ≠ .started i w

/-- Jobs have been started, some of which are in flight, with a history of events. -/
inductive Runs : Nat → Multiset (Nat × Value) → List JobEvent → Prop
  | none : Runs 0 0 []
  | start {n : Nat} {flights : Multiset (Nat × Value)} {h : List JobEvent} (v : Value) (hr : Runs n flights h) :
    Runs (n + 1) ((n + 1, v) ::ₘ flights) (.started (n + 1) v :: h)
  | drop {n job : Nat} {v : Value} {flights : Multiset (Nat × Value)} {h : List JobEvent} (r : Outcome Value)
    (hr : Runs n ((job, v) ::ₘ flights) h) (hne : job ≠ n) : Runs n flights (.ended job r :: h)
  | deliver {n : Nat} {v : Value} {flights : Multiset (Nat × Value)} {h : List JobEvent} (r : Outcome Value)
    (hr : Runs n ((n, v) ::ₘ flights) h) : Runs n flights (.delivered n v r :: .ended n r :: h)

/-! ## Splitting a history -/

section
variable {e x : JobEvent} {h later earlier : List JobEvent}

/-- An event with those before it is the last one or stands in the history before. -/
theorem split_cons (hs : e :: h = later ++ x :: earlier) :
    later = [] ∧ x = e ∧ earlier = h ∨ ∃ later', later = e :: later' ∧ h = later' ++ x :: earlier := by
  cases later with
  | nil => exact .inl ⟨rfl, (List.cons.inj hs).1.symm, (List.cons.inj hs).2.symm⟩
  | cons e' later' =>
    obtain ⟨rfl, hh⟩ := List.cons.inj hs
    exact .inr ⟨later', rfl, hh⟩

end

theorem Newest.cons {h : List JobEvent} {job : Nat} {v : Value} {e : JobEvent} (hn : Newest h job v)
    (he : ∀ i w, e ≠ .started i w) : Newest (e :: h) job v := by
  obtain ⟨later, earlier, rfl, hlater⟩ := hn
  exact ⟨e :: later, earlier, rfl, List.forall_mem_cons.mpr ⟨he, hlater⟩⟩

theorem Newest.of_cons {h : List JobEvent} {job : Nat} {v : Value} {e : JobEvent} (hn : Newest (e :: h) job v)
    (he : ∀ i w, e ≠ .started i w) : Newest h job v := by
  obtain ⟨later, earlier, hs, hlater⟩ := hn
  rcases split_cons hs with ⟨-, rfl, -⟩ | ⟨later', rfl, rfl⟩
  · exact absurd rfl (he _ _)
  · exact ⟨later', earlier, rfl, (List.forall_mem_cons.mp hlater).2⟩

theorem newest_cons_started {h : List JobEvent} {i job : Nat} {v w : Value} (hn : Newest (.started i w :: h) job v) :
    job = i ∧ v = w := by
  obtain ⟨later, earlier, hs, hlater⟩ := hn
  rcases split_cons hs with ⟨-, heq, -⟩ | ⟨later', rfl, -⟩
  · cases heq
    exact ⟨rfl, rfl⟩
  · exact absurd rfl (hlater _ List.mem_cons_self i w)

theorem Newest.unique {h : List JobEvent} {i job : Nat} {v w : Value} (hn : Newest h job v) (hi : Newest h i w) :
    (job, v) = (i, w) := by
  obtain ⟨later, earlier, hs, hlater⟩ := hn
  induction h generalizing later with
  | nil => cases later <;> cases hs
  | cons e h ih =>
    rcases split_cons hs with ⟨-, rfl, -⟩ | ⟨later', rfl, hs'⟩
    · obtain ⟨rfl, rfl⟩ := newest_cons_started hi
      rfl
    · obtain ⟨he, hlater'⟩ := List.forall_mem_cons.mp hlater
      exact ih (hi.of_cons he) later' hs' hlater'

theorem mem_deliveries {h : List JobEvent} {job : Nat} {v : Value} {r : Outcome Value} :
    (job, v, r) ∈ deliveries h ↔ .delivered job v r ∈ h := by
  rw [deliveries, List.mem_filterMap]
  constructor
  · rintro ⟨e, he, hd⟩
    cases e <;> cases hd
    exact he
  · exact fun he => ⟨_, he, rfl⟩

namespace Runs
variable {n job i : Nat} {v w : Value} {r : Outcome Value} {flights : Multiset (Nat × Value)}
  {h later earlier : List JobEvent}

/-! ## Numbers -/

theorem started_le (hr : Runs n flights h) (hs : .started job v ∈ h) : job ≤ n := by
  induction hr with
  | none => cases hs
  | start w _ ih =>
    rcases List.mem_cons.mp hs with heq | hs
    · cases heq
      exact Nat.le_refl _
    · exact Nat.le_succ_of_le (ih hs)
  | drop _ _ _ ih => exact ih (by simpa using hs)
  | deliver _ _ ih => exact ih (by simpa using hs)

theorem started_of_flight (hr : Runs n flights h) (hf : (job, v) ∈ flights) : .started job v ∈ h := by
  induction hr with
  | none => cases hf
  | start w _ ih =>
    rcases Multiset.mem_cons.mp hf with heq | hf
    · cases heq
      exact List.mem_cons_self
    · exact List.mem_cons_of_mem _ (ih hf)
  | drop _ _ _ ih => exact List.mem_cons_of_mem _ (ih (Multiset.mem_cons_of_mem hf))
  | deliver _ _ ih => exact List.mem_cons_of_mem _ (List.mem_cons_of_mem _ (ih (Multiset.mem_cons_of_mem hf)))

theorem flight_le (hr : Runs n flights h) (hf : (job, v) ∈ flights) : job ≤ n := hr.started_le (hr.started_of_flight hf)

theorem nodup (hr : Runs n flights h) : (flights.map (·.1)).Nodup := by
  induction hr with
  | none => exact Multiset.nodup_zero
  | start v hr ih =>
    rw [Multiset.map_cons, Multiset.nodup_cons]
    refine ⟨fun hmem => ?_, ih⟩
    obtain ⟨⟨i, w⟩, hf, heq⟩ := Multiset.mem_map.mp hmem
    have hle := hr.flight_le hf
    have hi : i = _ + 1 := heq
    omega
  | drop _ _ _ ih =>
    rw [Multiset.map_cons, Multiset.nodup_cons] at ih
    exact ih.2
  | deliver _ _ ih =>
    rw [Multiset.map_cons, Multiset.nodup_cons] at ih
    exact ih.2

/-- A job that is in flight beside others is none of them. -/
theorem ne_of_flight (hr : Runs n ((i, w) ::ₘ flights) h) (hf : (job, v) ∈ flights) : job ≠ i := by
  rintro rfl
  have hnodup := hr.nodup
  rw [Multiset.map_cons, Multiset.nodup_cons] at hnodup
  exact hnodup.1 (Multiset.mem_map_of_mem (·.1) hf)

theorem ended_le (hr : Runs n flights h) (he : .ended job r ∈ h) : job ≤ n := by
  induction hr with
  | none => cases he
  | start w _ ih => exact Nat.le_succ_of_le (ih (by simpa using he))
  | drop _ hr _ ih =>
    rcases List.mem_cons.mp he with heq | he
    · cases heq
      exact hr.flight_le (Multiset.mem_cons_self _ _)
    · exact ih he
  | deliver _ _ ih =>
    rcases List.mem_cons.mp ((List.mem_cons.mp he).resolve_left nofun) with heq | he
    · cases heq
      exact Nat.le_refl _
    · exact ih he

/-- A job that is in flight has not ended. -/
theorem not_ended_of_flight (hr : Runs n flights h) (hf : (job, v) ∈ flights) : .ended job r ∉ h := by
  induction hr with
  | none => exact List.not_mem_nil
  | start w hr ih =>
    intro he
    have hold := (List.mem_cons.mp he).resolve_left nofun
    rcases Multiset.mem_cons.mp hf with heq | hf
    · cases heq
      have hle := hr.ended_le hold
      omega
    · exact ih hf hold
  | drop _ hr _ ih =>
    intro he
    rcases List.mem_cons.mp he with heq | he
    · cases heq
      exact hr.ne_of_flight hf rfl
    · exact ih (Multiset.mem_cons_of_mem hf) he
  | deliver _ hr ih =>
    intro he
    rcases List.mem_cons.mp ((List.mem_cons.mp he).resolve_left nofun) with heq | he
    · cases heq
      exact hr.ne_of_flight hf rfl
    · exact ih (Multiset.mem_cons_of_mem hf) he

theorem ended_of_delivered (hr : Runs n flights h) (hd : .delivered job v r ∈ h) : .ended job r ∈ h := by
  induction hr with
  | none => cases hd
  | start w _ ih => exact List.mem_cons_of_mem _ (ih (by simpa using hd))
  | drop _ _ _ ih => exact List.mem_cons_of_mem _ (ih (by simpa using hd))
  | deliver _ _ ih =>
    rcases List.mem_cons.mp hd with heq | hd
    · cases heq
      exact List.mem_cons_of_mem _ List.mem_cons_self
    · exact List.mem_cons_of_mem _ (List.mem_cons_of_mem _ (ih (by simpa using hd)))

/-- The newest job has the last number. -/
theorem eq_of_newest (hr : Runs n flights h) (hn : Newest h job v) : job = n := by
  induction hr with
  | none =>
    obtain ⟨later, earlier, hs, -⟩ := hn
    cases later <;> cases hs
  | start w _ ih => exact (newest_cons_started hn).1
  | drop _ _ _ ih => exact ih (hn.of_cons nofun)
  | deliver _ _ ih => exact ih ((hn.of_cons nofun).of_cons nofun)

/-- If the last job is in flight, it is the newest one. -/
theorem newest_of_flight (hr : Runs n flights h) (hf : (n, v) ∈ flights) : Newest h n v := by
  induction hr with
  | none => cases hf
  | start w hr ih =>
    rcases Multiset.mem_cons.mp hf with heq | hf
    · cases heq
      exact ⟨[], _, rfl, nofun⟩
    · exact absurd (hr.flight_le hf) (by omega)
  | drop _ _ _ ih => exact (ih (Multiset.mem_cons_of_mem hf)).cons nofun
  | deliver _ hr ih => exact absurd rfl (hr.ne_of_flight hf)

/-! ## What is delivered -/

/-- Every delivery is that of the newest job, which has just ended, and of a later one than all before. -/
theorem delivered (hr : Runs n flights h) (hs : h = later ++ .delivered job v r :: earlier) :
    Newest earlier job v ∧ earlier.head? = some (.ended job r) ∧
      ∀ i w q, .delivered i w q ∈ earlier → i < job := by
  induction hr generalizing later with
  | none => cases later <;> cases hs
  | start _ _ ih =>
    rcases split_cons hs with ⟨-, heq, -⟩ | ⟨later', -, hs⟩
    · cases heq
    · exact ih hs
  | drop _ _ _ ih =>
    rcases split_cons hs with ⟨-, heq, -⟩ | ⟨later', -, hs⟩
    · cases heq
    · exact ih hs
  | @deliver n u flights h q hr ih =>
    rcases split_cons hs with ⟨-, heq, rfl⟩ | ⟨later', -, hs⟩
    · cases heq
      have hflight := Multiset.mem_cons_self (job, v) flights
      refine ⟨(hr.newest_of_flight hflight).cons nofun, rfl, fun i w q hd => ?_⟩
      have hended := hr.ended_of_delivered (by simpa using hd)
      have hne : i ≠ job := fun heq => hr.not_ended_of_flight hflight (heq ▸ hended)
      have hle := hr.ended_le hended
      omega
    · rcases split_cons hs with ⟨-, heq, -⟩ | ⟨later'', -, hs⟩
      · cases heq
      · exact ih hs

/-- If the last job has ended, what it came to has been delivered, once. -/
theorem deliveries_of_ended (hr : Runs n flights h) (he : .ended n r ∈ h) :
    ∃ v, Newest h n v ∧ (deliveries h).filter (·.1 = n) = [(n, v, r)] := by
  induction hr with
  | none => cases he
  | start _ hr _ => exact absurd (hr.ended_le (by simpa using he)) (by omega)
  | drop _ _ hne ih =>
    rcases List.mem_cons.mp he with heq | he
    · cases heq
      exact absurd rfl hne
    · obtain ⟨v, hn, hd⟩ := ih he
      exact ⟨v, hn.cons nofun, hd⟩
  | @deliver n v flights h q hr ih =>
    have hflight := Multiset.mem_cons_self (n, v) flights
    rcases List.mem_cons.mp ((List.mem_cons.mp he).resolve_left nofun) with heq | he
    · cases heq
      refine ⟨v, ((hr.newest_of_flight hflight).cons (e := .ended n r) nofun).cons nofun, ?_⟩
      have hnone : (deliveries h).filter (·.1 = n) = [] := by
        refine List.filter_eq_nil_iff.mpr fun d hd hdn => ?_
        obtain rfl : d.1 = n := of_decide_eq_true hdn
        exact hr.not_ended_of_flight hflight (hr.ended_of_delivered (mem_deliveries.mp hd))
      show (_ :: deliveries h).filter _ = _
      rw [List.filter_cons_of_pos (by simp), hnone]
    · exact absurd he (hr.not_ended_of_flight hflight)

/-- Once a later job has been started, a job does not deliver. -/
theorem not_delivered_of_superseded (hr : Runs n flights h) (hs : h = later ++ .started i w :: earlier)
    (hj : .started job v ∈ earlier) : job < i ∧ ∀ u q, .delivered job u q ∉ later := by
  induction hr generalizing later with
  | none => cases later <;> cases hs
  | start _ hr ih =>
    rcases split_cons hs with ⟨rfl, heq, rfl⟩ | ⟨later', rfl, hs'⟩
    · cases heq
      exact ⟨Nat.lt_succ_of_le (hr.started_le hj), fun _ _ => List.not_mem_nil⟩
    · obtain ⟨hlt, hnot⟩ := ih hs'
      exact ⟨hlt, fun u q hd => hnot u q (by simpa using hd)⟩
  | drop _ _ _ ih =>
    rcases split_cons hs with ⟨-, heq, -⟩ | ⟨later', rfl, hs'⟩
    · cases heq
    · obtain ⟨hlt, hnot⟩ := ih hs'
      exact ⟨hlt, fun u q hd => hnot u q (by simpa using hd)⟩
  | deliver _ hr ih =>
    rcases split_cons hs with ⟨-, heq, -⟩ | ⟨later', rfl, hs'⟩
    · cases heq
    · rcases split_cons hs' with ⟨-, heq, -⟩ | ⟨later'', rfl, hs''⟩
      · cases heq
      · obtain ⟨hlt, hnot⟩ := ih hs''
        refine ⟨hlt, fun u q hd => ?_⟩
        rcases List.mem_cons.mp hd with heq | hd
        · cases heq
          have hi := hr.started_le (hs'' ▸ List.mem_append_right later'' List.mem_cons_self)
          omega
        · exact hnot u q (by simpa using hd)

end Runs
end JobEvent

/-! ## The record of a switch -/

/-- What is known of a switch: what has happened to its jobs, which of them are in flight, and what they have
delivered, the first one first. -/
structure Switch.Sound (s : Switch) (flights : Multiset (Nat × Value)) (noted : List (Value × Outcome Value)) :
    Prop where
  runs : JobEvent.Runs s.jobs.generation flights s.history
  running : (s.jobs.running : Multiset Nat) = flights.map (·.1)
  noted : noted = ((JobEvent.deliveries s.history).map (·.2)).reverse

namespace Switch.Sound
variable {s : Switch} {flights : Multiset (Nat × Value)} {noted : List (Value × Outcome Value)} {job : Nat} {v : Value}

theorem fresh (scripts : Entries) : Switch.Sound { scripts } 0 [] := ⟨.none, rfl, rfl⟩

theorem start (h : s.Sound flights noted) (v : Value) :
    (s.start v).Sound ((s.jobs.generation + 1, v) ::ₘ flights) noted where
  runs := h.runs.start v
  running := by
    rw [Multiset.map_cons, ← h.running]
    rfl
  noted := h.noted

/-- A job that is in flight ends; if it is the newest one, it delivers. -/
theorem finish (h : s.Sound ((job, v) ::ₘ flights) noted) (r : Outcome Value) : (s.finish job v r).1.Sound flights
    (if (s.finish job v r).2 then noted ++ [(v, r)] else noted) := by
  have hrunning := h.running
  rw [Multiset.map_cons] at hrunning
  have hmem : job ∈ s.jobs.running := by
    rw [← Multiset.mem_coe, hrunning]
    exact Multiset.mem_cons_self _ _
  have hdelivers : (s.finish job v r).2 = decide (job = s.jobs.generation) := by
    show (s.jobs.running.contains job && _) = _
    rw [List.contains_iff_mem.mpr hmem, Bool.true_and]
  have herase : ((s.finish job v r).1.jobs.running : Multiset Nat) = flights.map (·.1) := by
    show ((s.jobs.running.erase job : List Nat) : Multiset Nat) = _
    rw [← Multiset.coe_erase, hrunning, Multiset.erase_cons_head]
  have hhistory : (s.finish job v r).1.history = if (s.finish job v r).2 then
      .delivered job v r :: .ended job r :: s.history else .ended job r :: s.history := rfl
  by_cases hj : job = s.jobs.generation
  · rw [decide_eq_true hj] at hdelivers
    rw [hdelivers, if_pos rfl] at hhistory ⊢
    refine ⟨?_, herase, ?_⟩
    · rw [hhistory]
      subst hj
      exact h.runs.deliver r
    · rw [hhistory, h.noted]
      show _ = (((v, r) :: (JobEvent.deliveries s.history).map (·.2))).reverse
      rw [List.reverse_cons]
  · rw [decide_eq_false hj] at hdelivers
    rw [hdelivers] at hhistory ⊢
    refine ⟨?_, herase, ?_⟩
    · rw [hhistory]
      exact h.runs.drop r hj
    · rw [hhistory]
      exact h.noted

end Switch.Sound
end FormRules
