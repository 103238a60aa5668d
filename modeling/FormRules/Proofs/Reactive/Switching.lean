import FormRules.Proofs.Keeps
import FormRules.Proofs.Reactive.Jobs
import FormRules.Proofs.Store.Table
import FormRules.Proofs.Time.Schedule
import FormRules.Reactive.Operation

/-!
# Switching to the latest job

Whatever is done to a bench, in whatever order jobs end and whether there is an event loop to run them or not, a
switch delivers what the newest of its jobs has come to, and never what one has come to that has been superseded.

A job is in flight while a task of it is pending, and while such a task is being run (`held`). Every operation keeps
`Sound`: what has happened to the jobs of every switch is what can happen to jobs, for those in flight.
-/

namespace FormRules

/-- The job that a task belongs to: its switch, its number and its value. -/
def BenchTask.job? : BenchTask → Option (String × Nat × Value)
  | jobStart switch job v | jobReply switch job v _ => some (switch, job, v)
  | quiet _ | ring _ | abandoned => none

/-- The outcome that an event notes under a name. -/
def Event.outcome? (name : String) : String × Event → Option (Value × Outcome Value)
  | (tag, .outcome v r) => if tag = name then some (v, r) else none
  | (_, .value _) | (_, .time _) => none

namespace Bench

/-- A job, if it belongs to a switch. -/
def ofSwitch (name : String) (o : Option (String × Nat × Value)) : Option (Nat × Value) :=
  o.bind fun j => if j.1 = name then some j.2 else none

/-- The switch of a name, or one without jobs. -/
def switch (b : Bench) (name : String) : Switch := (Table.get? b.switches name).getD { scripts := [] }

/-- The jobs of a switch that are in flight. -/
def flights (held : Option (String × Nat × Value)) (b : Bench) (name : String) : Multiset (Nat × Value) :=
  ((ofSwitch name held).toList : Multiset (Nat × Value)) + b.schedule.collect fun a => ofSwitch name a.task.job?

/-- The outcomes that have been noted under a name, the first one first. -/
def noted (b : Bench) (name : String) : List (Value × Outcome Value) := b.events.filterMap (Event.outcome? name)

/-- What holds of a bench while a task of the job `held` is being run. -/
structure Sound (held : Option (String × Nat × Value)) (b : Bench) : Prop where
  ordered : b.schedule.Ordered
  followers : ∀ cell f n, Table.get? b.followers cell = some f → f.timer = some n → b.schedule.Owns n (.quiet cell)
  timers : ∀ tag n, Table.get? b.timers tag = some n → b.schedule.Owns n (.ring tag)
  switches : ∀ name, (b.switch name).Sound (flights held b name) (b.noted name)

namespace Sound
variable {b : Bench} {held held' : Option (String × Nat × Value)} {name cell tag : String} {job n : Nat} {v : Value}
  {r : Outcome Value} {s : Switch} {f : Follower} {t : Schedule BenchTask} {task : BenchTask}
  {a : Appointment BenchTask}

theorem fresh (h : b.IsFresh) : b.Sound none := by
  rw [h]
  exact ⟨nofun, nofun, nofun, fun _ => Switch.Sound.fresh []⟩

/-! ## Parts that are changed -/

theorem aside (h : b.Sound held) (network : Network) (hasLoop : Bool) (listeners : List Listener)
    (tags : List (String × (String × Nat))) (journal : Journal) :
    ({ b with network, hasLoop, listeners, tags, journal }).Sound held :=
  ⟨h.ordered, h.followers, h.timers, h.switches⟩

theorem follower (h : b.Sound held) (hf : ∀ n, f.timer = some n → b.schedule.Owns n (.quiet cell)) :
    ({ b with followers := Table.put b.followers cell f }).Sound held where
  ordered := h.ordered
  followers c g n hg hn := by
    obtain ⟨rfl, rfl⟩ | hg := Table.of_get?_put hg
    · exact hf n hn
    · exact h.followers c g n hg hn
  timers := h.timers
  switches := h.switches

theorem timer (h : b.Sound held) (hn : b.schedule.Owns n (.ring tag)) :
    ({ b with timers := Table.put b.timers tag n }).Sound held where
  ordered := h.ordered
  followers := h.followers
  timers u m hm := by
    obtain ⟨rfl, rfl⟩ | hm := Table.of_get?_put hm
    · exact hn
    · exact h.timers u m hm
  switches := h.switches

theorem note {e : Event} (h : b.Sound held) (he : ∀ name, Event.outcome? name (tag, e) = none) :
    ({ b with events := b.events ++ [(tag, e)] }).Sound held where
  ordered := h.ordered
  followers := h.followers
  timers := h.timers
  switches name := by
    have hnoted : noted { b with events := b.events ++ [(tag, e)] } name = b.noted name := by
      rw [noted, List.filterMap_append, List.filterMap_cons_none (he name), List.filterMap_nil, List.append_nil, noted]
    rw [hnoted]
    exact h.switches name

/-- A schedule that goes on from another one, with the same jobs in flight. -/
theorem reschedule (h : b.Sound held) (ht : b.schedule.Extends t)
    (hf : ∀ name, flights held' { b with schedule := t } name = flights held b name) :
    ({ b with schedule := t }).Sound held' where
  ordered := ht.ordered h.ordered
  followers cell f n hf hn := ht.owns (h.followers cell f n hf hn)
  timers tag n hn := ht.owns (h.timers tag n hn)
  switches name := by
    rw [hf]
    exact h.switches name

/-- A task is scheduled, by which the job that it belongs to is no longer held. -/
theorem schedule (task : BenchTask) (h : b.Sound task.job?) (delay : Int) :
    ({ b with schedule := b.schedule.after delay task }).Sound none :=
  h.reschedule (Schedule.extends_after _ _ _) fun name => by
    rw [flights, Schedule.collect_after, flights]
    exact Multiset.zero_add _

theorem cancel (h : b.Sound held) (hn : b.schedule.Owns n task) (hj : task.job? = none) :
    ({ b with schedule := b.schedule.cancel n }).Sound held :=
  h.reschedule (Schedule.extends_cancel _ _) fun name => by
    rw [flights, hn.collect_cancel fun a ha => by rw [ha, hj]; rfl, flights]

/-- A task is taken out to be run, while the job that it belongs to is held. -/
theorem takes (h : b.Sound none) (ht : b.schedule.Takes a t) : ({ b with schedule := t }).Sound a.task.job? :=
  h.reschedule ht.extends fun name => by
    rw [flights, flights, ht.collect]
    exact (Multiset.zero_add _).symm

theorem moveTo (h : b.Sound held) (moment : Int) : ({ b with schedule := b.schedule.moveTo moment }).Sound held :=
  h.reschedule ⟨id, fun h => ⟨h.issued, h.task_eq⟩⟩ fun _ => rfl

/-! ## Jobs -/

theorem switch_eq {s : Switch} (h : Table.get? b.switches name = some s) : b.switch name = s := by
  rw [switch, h]
  rfl

theorem switch_congr {c : Bench} (h : Table.get? c.switches name = Table.get? b.switches name) :
    c.switch name = b.switch name := by
  rw [switch, h, switch]

/-- A switch is added under a name of its own. -/
theorem switchTo (h : b.Sound held) (hn : Table.get? b.switches name = none) (scripts : Entries) :
    ({ b with switches := Table.put b.switches name { scripts } }).Sound held where
  ordered := h.ordered
  followers := h.followers
  timers := h.timers
  switches other := by
    have hs := h.switches other
    by_cases ho : other = name
    · subst ho
      rw [switch_eq Table.get?_put_self]
      rw [switch, hn] at hs
      exact ⟨hs.runs, hs.running, hs.noted⟩
    · rw [switch_congr (Table.get?_put_of_ne ho)]
      exact hs

theorem ofSwitch_of_ne {other : String} (h : other ≠ name) (j : Nat × Value) : ofSwitch other (some (name, j)) = none :=
  if_neg h.symm

theorem flights_of_ne {other : String} (h : other ≠ name) (j : Nat × Value) :
    flights (some (name, j)) b other = flights none b other := by
  rw [flights, ofSwitch_of_ne h]
  rfl

theorem flights_held (j : Nat × Value) : flights (some (name, j)) b name = j ::ₘ flights none b name := by
  rw [flights, ofSwitch, Option.bind_some, if_pos rfl, flights]
  exact (Multiset.singleton_add j _).trans (congrArg (j ::ₘ ·) (Multiset.zero_add _).symm)

/-- A job is started, for which no task has been scheduled yet. -/
theorem start (h : b.Sound none) (hs : Table.get? b.switches name = some s) (v : Value) :
    ({ b with switches := Table.put b.switches name (s.start v) }).Sound
      (some (name, (s.start v).jobs.generation, v)) where
  ordered := h.ordered
  followers := h.followers
  timers := h.timers
  switches other := by
    have hother := h.switches other
    by_cases ho : other = name
    · subst ho
      rw [switch_eq hs] at hother
      rw [switch_eq Table.get?_put_self, flights_held]
      exact hother.start v
    · rw [switch_congr (Table.get?_put_of_ne ho), flights_of_ne ho]
      exact hother

/-- A job ends; if it is the newest one, its outcome is noted. -/
theorem finish (h : b.Sound (some (name, job, v))) (hs : Table.get? b.switches name = some s) (r : Outcome Value) :
    ({ b with
      switches := Table.put b.switches name (s.finish job v r).1
      events := if (s.finish job v r).2 then b.events ++ [(name, Event.outcome v r)] else b.events }).Sound none where
  ordered := h.ordered
  followers := h.followers
  timers := h.timers
  switches other := by
    have hother := h.switches other
    have hnoted : noted { b with events := b.events ++ [(name, Event.outcome v r)] } other =
        if name = other then b.noted other ++ [(v, r)] else b.noted other := by
      rw [noted, List.filterMap_append, noted]
      by_cases ho : name = other <;> simp [Event.outcome?, ho]
    by_cases ho : other = name
    · subst ho
      rw [switch_eq hs, flights_held] at hother
      have hfinish := hother.finish r
      rw [if_pos rfl] at hnoted
      rw [switch_eq Table.get?_put_self]
      cases hd : (s.finish job v r).2 with
      | true =>
        rw [hd] at hfinish
        exact hnoted ▸ hfinish
      | false =>
        rw [hd] at hfinish
        exact hfinish
    · rw [flights_of_ne ho] at hother
      rw [if_neg (Ne.symm ho)] at hnoted
      rw [switch_congr (Table.get?_put_of_ne ho)]
      cases (s.finish job v r).2 with
      | true => exact hnoted ▸ hother
      | false => exact hother

/-- A job that is held belongs to a switch that exists. -/
theorem exists_switch (h : b.Sound (some (name, job, v))) : ∃ s, Table.get? b.switches name = some s := by
  cases hs : Table.get? b.switches name with
  | some s => exact ⟨s, rfl⟩
  | none =>
    have hname := h.switches name
    rw [switch, hs, flights_held] at hname
    exact absurd (hname.runs.started_of_flight (Multiset.mem_cons_self _ _)) List.not_mem_nil

end Sound
end Bench

/-! ## Computations -/

namespace Benched
open Bench
variable {β : Type} {b : Bench} {name tag cell : String} {job : Nat} {v : Value} {r : Outcome Value} {task : BenchTask}
  {told : List (Nat × Value)} {tell : List (Nat × Value) → Benched Unit}

theorem attempt_state (x : Benched β) (b : Bench) : ((attempt x).run.run b).2 = (x.run.run b).2 :=
  congrArg Prod.snd (run_outcome_state x b)

theorem keeps_attempt {x : Benched β} (hx : Keeps (Sound none) x) : Keeps (Sound none) (attempt x) := by
  intro b h
  rw [attempt_state]
  exact hx b h

theorem keeps_onNetwork (x : Flow β) : Keeps (Sound none) (onNetwork x) :=
  fun _ h => h.aside _ _ _ _ _

theorem keeps_report (n : Notice) : Keeps (Sound none) (report n) := .modify fun _ h => h.aside _ _ _ _ _

theorem keeps_require (o : Option β) : Keeps (Sound none) (require o) := by
  cases o with
  | none => exact .throw _
  | some a => exact .pure a

theorem keeps_note {e : Event} (he : ∀ name, Event.outcome? name (tag, e) = none) : Keeps (Sound none) (note tag e) :=
  .modify fun _ h => h.note he

theorem jobEnded_sound (h : b.Sound (some (name, job, v))) (r : Outcome Value) :
    ((jobEnded name job v r).run.run b).2.Sound none := by
  obtain ⟨s, hs⟩ := h.exists_switch
  have hfinish := h.finish hs r
  unfold jobEnded
  rw [run_get_bind_state, hs]
  dsimp only
  cases hf : s.finish job v r with
  | mk s' delivers =>
    rw [hf] at hfinish
    cases delivers <;> exact hfinish

theorem keeps_startJob (name : String) (v : Value) : Keeps (Sound none) (startJob name v) := by
  intro b h
  unfold startJob
  rw [run_get_bind_state]
  cases hs : Table.get? b.switches name with
  | none => exact h
  | some s =>
    have hstart := h.start hs v
    dsimp only
    split
    · exact hstart.schedule (.jobStart name (s.start v).jobs.generation v) 0
    · exact jobEnded_sound hstart _

theorem runJob_sound (h : b.Sound (some (name, job, v))) : ((runJob name job v).run.run b).2.Sound none := by
  obtain ⟨s, hs⟩ := h.exists_switch
  unfold runJob
  rw [run_get_bind_state, hs]
  exact h.schedule (.jobReply name job v (s.reply v).outcome) _

/-! ## Changes -/

theorem keeps_writeWith (ht : ∀ told, Keeps (Sound none) (tell told)) (name : String) (v : Value) :
    Keeps (Sound none) (writeWith tell name v) := by
  refine (keeps_attempt (keeps_onNetwork _)).bind fun outcome => (keeps_onNetwork _).bind fun told =>
    (ht told).bind fun _ => ?_
  cases outcome with
  | ok changed => exact .pure _
  | error e => exact .throw _

theorem keeps_settleWith (ht : ∀ told, Keeps (Sound none) (tell told)) (cell : String) :
    Keeps (Sound none) (settleWith tell cell) := by
  refine .get_bind fun b h => ?_
  cases hf : Table.get? b.followers cell with
  | none => exact h
  | some f =>
    have hrest : Keeps (Sound none) (do
        let v ← onNetwork (Flow.read f.source)
        let _ ← writeWith tell cell v) :=
      (keeps_onNetwork _).bind fun v => (keeps_writeWith ht cell v).bind fun _ => .pure _
    exact hrest _ (h.follower nofun)

theorem cancel_sound (h : b.Sound none) (timer : Option Nat) (hn : ∀ n, timer = some n → b.schedule.Owns n task)
    (hj : task.job? = none) : ((cancel timer).run.run b).2.Sound none := by
  cases timer with
  | none => exact h
  | some n => exact h.cancel (hn n rfl) hj

theorem keeps_hear (ht : ∀ told, Keeps (Sound none) (tell told)) (v : Value) (l : Listener) :
    Keeps (Sound none) (hear tell v l) := by
  cases l with
  | notes tag raises =>
    refine (keeps_note fun _ => rfl).bind fun _ => ?_
    split
    · exact .throw _
    · exact .pure _
  | starts name => exact keeps_startJob name v
  | follows cell =>
    refine .get_bind fun b h => ?_
    cases hf : Table.get? b.followers cell with
    | none => exact h
    | some f =>
      dsimp only
      split
      · refine Keeps.bind_at (cancel_sound h f.timer (h.followers cell f · hf) rfl) fun _ => ?_
        -- the new timer belongs to the cell whose quiet period begins
        intro c hc
        have hscheduled := hc.schedule (.quiet cell) f.quietMs
        exact hscheduled.follower fun n hn => Option.some.inj hn ▸ hc.ordered.owns_after _ _
      · exact keeps_settleWith ht cell b h

theorem keeps_react (fuel : Nat) (told : List (Nat × Value)) : Keeps (Sound none) (react fuel told) := by
  induction fuel generalizing told with
  | zero =>
    rw [react]
    refine .forM fun c _ => ?_
    obtain ⟨n, v⟩ := c
    refine .get_bind fun b h => ?_
    cases b.listeners[n]? with
    | none => exact h
    | some l =>
      refine Keeps.bind_outcome (keeps_attempt (keeps_hear (fun _ => ?_) v l)) (fun _ => ?_) (fun _ => ?_) b h
      · exact .pure _
      · exact .pure _
      · exact keeps_report _
  | succ fuel ih =>
    rw [react]
    refine .forM fun c _ => ?_
    obtain ⟨n, v⟩ := c
    refine .get_bind fun b h => ?_
    cases b.listeners[n]? with
    | none => exact h
    | some l =>
      refine Keeps.bind_outcome (keeps_attempt (keeps_hear ih v l)) (fun _ => ?_) (fun _ => ?_) b h
      · exact .pure _
      · exact keeps_report _

theorem keeps_reactAll (told : List (Nat × Value)) : Keeps (Sound none) (reactAll told) :=
  .get_bind fun b h => keeps_react _ told b h

theorem keeps_write (name : String) (v : Value) : Keeps (Sound none) (write name v) :=
  keeps_writeWith keeps_reactAll name v

/-! ## Time -/

theorem runTask_sound (h : b.Sound task.job?) : ((runTask task).run.run b).2.Sound none := by
  cases task with
  | quiet cell => exact keeps_settleWith keeps_reactAll cell b h
  | jobStart name job v => exact runJob_sound h
  | jobReply name job v r => exact jobEnded_sound h r
  | ring tag => exact h.note fun _ => rfl
  | abandoned => exact h

/-- A task is taken out of the schedule and run, or another one that belongs to the same job. -/
theorem fire_sound {a : Appointment BenchTask} {t : Schedule BenchTask} (h : b.Sound none) (ht : b.schedule.Takes a t)
    (hj : task.job? = a.task.job?) : ((attempt (runTask task)).run.run { b with schedule := t }).2.Sound none := by
  rw [attempt_state]
  exact runTask_sound (hj ▸ h.takes ht)

theorem keeps_runDue (moment : Int) (fuel : Nat) : Keeps (Sound none) (runDue moment fuel) := by
  induction fuel with
  | zero => exact .pure _
  | succ fuel ih =>
    refine .get_bind fun b h => ?_
    cases hnext : b.schedule.next? (some moment) with
    | none => exact h
    | some taken =>
      obtain ⟨a, t⟩ := taken
      have hfired := fire_sound h (Schedule.takes_of_next? hnext) rfl
      exact Keeps.bind_at (s := { b with schedule := t }) hfired fun _ => ih

theorem keeps_advance (ms : Int) : Keeps (Sound none) (advance ms) := by
  refine .get_bind fun b h => ?_
  have hrest : Keeps (Sound none) (do
      runDue (b.schedule.now + ms) taskLimit
      modify fun c => { c with schedule := c.schedule.moveTo (b.schedule.now + ms) } : Benched Unit) :=
    (keeps_runDue _ _).bind fun _ => .modify fun _ h => h.moveTo _
  exact hrest b h

theorem keeps_fireTask (serial : Nat) {instead : BenchTask → BenchTask} (hj : ∀ t, (instead t).job? = t.job?) :
    Keeps (Sound none) (fireTask serial instead) := by
  refine .get_bind fun b h => ?_
  cases htake : b.schedule.take? serial with
  | none => exact h
  | some taken =>
    obtain ⟨a, t⟩ := taken
    have hfired := fire_sound h (Schedule.takes_of_take? htake) (hj a.task)
    exact Keeps.bind_at (s := { b with schedule := t }) hfired fun _ => .pure _

theorem job?_concluding (r : Outcome Value) (t : BenchTask) : (t.concluding r).job? = t.job? := by
  cases t <;> rfl

/-! ## Operations -/

/-- A listener that is added changes the network and the listeners only. -/
theorem keeps_listen {P : Bench → Prop} (hP : ∀ b network listeners, P b → P { b with network, listeners })
    (name : String) (l : Listener) : Keeps P (listen name l) := by
  refine .get_bind fun b h => ?_
  have hrest : Keeps P (do
      onNetwork (Flow.subscribe name b.listeners.length)
      modify fun b => { b with listeners := b.listeners ++ [l] }
      return b.listeners.length : Benched Nat) :=
    Keeps.bind (fun b h => hP b _ _ h) fun _ => Keeps.bind (.modify fun b h => hP b _ _ h) fun _ => .pure _
  exact hrest b h

/-- Every operation keeps what holds of a bench, if a switch that it adds has a name of its own. -/
theorem perform_sound {o : Operation} (h : b.Sound none) (ho : b.Admits o) : (b.next o).Sound none := by
  cases o with
  | addSignal name s => exact keeps_onNetwork _ b h
  | follow name source ms initial =>
    have hrest : Keeps (Sound none) (follow name source ms initial) :=
      (keeps_listen (fun _ _ _ h => h.aside _ _ _ _ _) _ _).bind fun _ =>
        Keeps.bind (.modify fun _ h => h.follower nofun) fun _ => keeps_onNetwork _
    exact hrest b h
  | switchTo name source scripts =>
    -- the name stays free until the switch is added
    have hlisten : Keeps (fun c => c.Sound none ∧ Table.get? c.switches name = none) (listen source (.starts name)) :=
      keeps_listen (fun _ _ _ h => ⟨h.1.aside _ _ _ _ _, h.2⟩) _ _
    exact Keeps.bind_to (hlisten b ⟨h, ho⟩) (fun _ => And.left) fun _ c hc => hc.1.switchTo hc.2 scripts
  | subscribe name tag raises =>
    have hrest : Keeps (Sound none) (subscribe name tag raises) :=
      (keeps_listen (fun _ _ _ h => h.aside _ _ _ _ _) _ _).bind fun _ => .modify fun _ h => h.aside _ _ _ _ _
    exact hrest b h
  | unsubscribe tag =>
    have hrest : Keeps (Sound none) (unsubscribe tag) :=
      .get_bind fun b h => ((keeps_require _).bind fun _ => keeps_onNetwork _) b h
    exact hrest b h
  | dispose name => exact keeps_onNetwork _ b h
  | setTimer tag ms =>
    have hrest : Keeps (Sound none) (setTimer tag ms) := by
      refine .get_bind fun b h => ?_
      split
      · have hscheduled := h.schedule (.ring tag) ms
        exact hscheduled.timer (h.ordered.owns_after _ _)
      · exact h.note fun _ => rfl
    exact hrest b h
  | stopTimer tag => exact cancel_sound h _ (fun n hn => h.timers tag n hn) rfl
  | write name v => exact ((keeps_write name v).bind fun _ => .pure _) b h
  | read name => exact ((keeps_onNetwork _).bind fun _ => .pure _) b h
  | tell name v => exact keeps_startJob name v b h
  | advance ms => exact keeps_advance ms b h
  | wait ms => exact h.moveTo _
  | fire serial => exact keeps_fireTask serial (fun _ => rfl) b h
  | conclude serial r => exact keeps_fireTask serial (job?_concluding r) b h
  | setLoop l => exact h.aside _ _ _ _ _

end Benched

namespace Bench
variable {b : Bench} {name : String} {s : Switch}

theorem Reachable.sound (h : b.Reachable) : b.Sound none := by
  induction h with
  | fresh h => exact .fresh h
  | next _ ho ih => exact Benched.perform_sound ih ho

/-- Of the jobs of a switch only the newest one delivers, as soon as it has ended, and each at most once, in the order
in which they were started. If the job that was started last has ended, what it came to has been delivered exactly
once. Once a later job has been started, a job does not deliver any more. What is noted under the name of the switch is
what has been delivered. -/
theorem delivers_newest (h : b.Reachable) (hs : Table.get? b.switches name = some s) :
    (∀ later earlier job v r, s.history = later ++ .delivered job v r :: earlier →
      JobEvent.Newest earlier job v ∧ earlier.head? = some (.ended job r) ∧
        ∀ i w q, .delivered i w q ∈ earlier → i < job) ∧
    (∀ job v r, JobEvent.Newest s.history job v → .ended job r ∈ s.history →
      (JobEvent.deliveries s.history).filter (·.1 = job) = [(job, v, r)]) ∧
    (∀ later earlier i w job v, s.history = later ++ .started i w :: earlier → .started job v ∈ earlier →
      job < i ∧ ∀ u q, .delivered job u q ∉ later) ∧
    b.noted name = ((JobEvent.deliveries s.history).map (·.2)).reverse := by
  have hsound := h.sound.switches name
  rw [Sound.switch_eq hs] at hsound
  refine ⟨fun _ _ _ _ _ hd => hsound.runs.delivered hd, fun job v r hn he => ?_,
    fun _ _ _ _ _ _ hi hj => hsound.runs.not_delivered_of_superseded hi hj, hsound.noted⟩
  have hjob := hsound.runs.eq_of_newest hn
  obtain ⟨u, hu, hd⟩ := hsound.runs.deliveries_of_ended (hjob ▸ he)
  rw [← hjob] at hu hd
  cases hn.unique hu
  exact hd

/-- A switch is told two values by its source, and the job of the first one ends first. -/
def overtaking : List Operation :=
  [.addSignal "a" {}, .switchTo "latest" "a" [], .tell "latest" (.bool false), .tell "latest" (.bool true),
    .conclude 0 (.ok (.text "first")), .conclude 1 (.ok (.text "second"))]

/-- What the first job comes to is dropped. -/
theorem delivers_newest_overtaking : (runAll {} overtaking).Reachable ∧
    ∃ s, Table.get? (runAll {} overtaking).switches "latest" = some s ∧
      .ended 1 (.ok (.text "first")) ∈ s.history ∧ .ended 2 (.ok (.text "second")) ∈ s.history ∧
      JobEvent.Newest s.history 2 (.bool true) ∧
      (JobEvent.deliveries s.history).filter (·.1 = 2) = [(2, .bool true, .ok (.text "second"))] ∧
      ∀ v r, .delivered 1 v r ∉ s.history := by
  have hfresh : IsFresh {} := rfl
  have hadded : Reachable (next {} (.addSignal "a" {})) := .next (.fresh hfresh) (o := .addSignal "a" {}) trivial
  have hswitch : Reachable (next (next {} (.addSignal "a" {})) (.switchTo "latest" "a" [])) :=
    .next hadded (o := .switchTo "latest" "a" []) rfl
  have hreachable : (runAll {} overtaking).Reachable :=
    .next (.next (.next (.next hswitch (o := .tell "latest" (.bool false)) trivial)
      (o := .tell "latest" (.bool true)) trivial) (o := .conclude 0 (.ok (.text "first"))) trivial)
      (o := .conclude 1 (.ok (.text "second"))) trivial
  let first : List JobEvent := [.started 1 (.bool false)]
  let second : List JobEvent := [.delivered 2 (.bool true) (.ok (.text "second")), .ended 2 (.ok (.text "second")),
    .ended 1 (.ok (.text "first"))]
  have hs : Table.get? (runAll {} overtaking).switches "latest" = some {
      scripts := []
      jobs := { generation := 2, running := [] }
      history := second ++ .started 2 (.bool true) :: first } := rfl
  have hnewest : JobEvent.Newest (second ++ .started 2 (.bool true) :: first) 2 (.bool true) :=
    ⟨second, first, rfl, by simp [second]⟩
  obtain ⟨-, honce, hsuperseded, -⟩ := delivers_newest hreachable hs
  obtain ⟨-, hnot⟩ := hsuperseded second first 2 (.bool true) 1 (.bool false) rfl List.mem_cons_self
  refine ⟨hreachable, _, hs, by simp [second], by simp [second], hnewest, honce 2 _ _ hnewest (by simp [second]), ?_⟩
  intro v r hd
  exact hnot v r (by simpa [first] using hd)

end Bench
end FormRules
