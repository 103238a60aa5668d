import FormRules.Proofs.Form.Turns

/-!
# What moves leave alone

Whatever inquiries, watchers, checks and jobs do to a form, its value, its rules and the data around it
stay as they are.
-/

namespace FormRules
variable {f g : Form}

namespace Form
variable {k : SlotKey}

/-- The parts of a form that no move changes. -/
def lasting (f : Form) : Form where
  functions := f.functions
  settings := f.settings
  hasLoop := f.hasLoop
  value := f.value
  version := f.version
  external := f.external
  subscribers := f.subscribers
  rulebook := f.rulebook
  derivations := f.derivations

theorem of_lasting (h : g.lasting = f.lasting) : g.value = f.value ∧ g.version = f.version ∧
    g.derivations = f.derivations ∧ g.subscribers = f.subscribers := by
  have parts (f : Form) : f.value = f.lasting.value ∧ f.version = f.lasting.version ∧
    f.derivations = f.lasting.derivations ∧ f.subscribers = f.lasting.subscribers := ⟨rfl, rfl, rfl, rfl⟩
  have hg := parts g
  rw [h] at hg
  exact hg

theorem of_lasting_rules (h : g.lasting = f.lasting) : g.functions = f.functions ∧ g.rulebook = f.rulebook := by
  have parts (f : Form) : f.functions = f.lasting.functions ∧ f.rulebook = f.lasting.rulebook := ⟨rfl, rfl⟩
  have hg := parts g
  rw [h] at hg
  exact hg

/-- What conditions are decided by stays. -/
theorem of_lasting_context (h : g.lasting = f.lasting) :
    g.value = f.value ∧ g.functions = f.functions ∧ g.external = f.external := by
  have parts (f : Form) : f.value = f.lasting.value ∧ f.functions = f.lasting.functions ∧
    f.external = f.lasting.external := ⟨rfl, rfl, rfl⟩
  have hg := parts g
  rw [h] at hg
  exact hg

/-- A form less its inquiries: their slots, what they remember, and what is scheduled. -/
def calm (f : Form) : Form :=
  { f with slots := [], answers := { capacity := 0 }, history := [], schedule := {} }

theorem of_calm (h : g.calm = f.calm) :
    g.lasting = f.lasting ∧ g.streams = f.streams ∧ g.compiled = f.compiled := by
  have parts (f : Form) :
    f.lasting = f.calm.lasting ∧ f.streams = f.calm.streams ∧ f.compiled = f.calm.compiled := ⟨rfl, rfl, rfl⟩
  have hg := parts g
  rw [h] at hg
  exact hg

@[simp] theorem calm_onSchedule (t : Schedule Task) : (f.onSchedule t).calm = f.calm := rfl

@[simp] theorem calm_booked (delay : Int) (t : Task) : (f.booked delay t).calm = f.calm := rfl

@[simp] theorem calm_withoutTimer (t : Option Nat) : (f.withoutTimer t).calm = f.calm := by cases t <;> rfl

@[simp] theorem calm_withSlot (s : Slot) : (f.withSlot k s).calm = f.calm := rfl

@[simp] theorem calm_recorded (i : Inquiry) (e : InquiryEvent) : (f.recorded k i e).calm = f.calm := rfl

@[simp] theorem calm_consulted (key : String) : (f.consulted key).calm = f.calm := rfl

@[simp] theorem calm_answered (s : Slot) (job : InquiryJob) (b : Bool) :
    (f.answered k s job b).calm = f.calm := rfl

@[simp] theorem calm_remembered (s : Slot) (job : InquiryJob) (b : Bool) :
    (f.remembered s job b).calm = f.calm := rfl

@[simp] theorem calm_asked (s : Slot) (job : InquiryJob) (r : Reply Value) :
    (f.asked k s job r).calm = f.calm := rfl

@[simp] theorem calm_jobEnded (s : Slot) (job : InquiryJob) (r : Outcome Value) :
    (f.jobEnded k s job r).calm = f.calm := by
  unfold jobEnded
  dsimp only
  split
  · split <;> simp only [calm_answered, calm_remembered, calm_withSlot, calm_recorded]
  · rw [calm_withSlot, calm_recorded]

@[simp] theorem calm_jobStarted (s : Slot) (job : InquiryJob) : (f.jobStarted k s job).calm = f.calm := by
  unfold jobStarted
  dsimp only
  split
  · rw [calm_booked, calm_recorded]
  · rw [calm_jobEnded, calm_recorded]

@[simp] theorem calm_quietOver (s : Slot) : (f.quietOver k s).calm = f.calm := by
  unfold quietOver
  split
  · rw [calm_jobStarted, calm_withSlot]
  · rw [calm_withSlot]

@[simp] theorem calm_dispatched (s : Slot) (d : Dispatch) : (f.dispatched k s d).calm = f.calm := by
  unfold dispatched
  dsimp only
  split
  · rw [calm_withSlot, calm_recorded, calm_booked, calm_withoutTimer]
  · rw [calm_quietOver, calm_withSlot, calm_recorded, calm_withoutTimer]

end Form

/-- A move is one that no inquiry takes notice of, one that compiles, or one of the inquiries alone. -/
theorem Move.calm_cases (h : Move f g) : Aside f g ∨
    (∃ c, f.compiled.Grows f.functions c ∧ g = { f with compiled := c }) ∨ g.calm = f.calm := by
  cases h with
  | aside h => exact .inl h
  | compiled h => exact .inr (.inl ⟨_, h, rfl⟩)
  | _ => exact .inr (.inr (by simp))

theorem Aside.lasting (h : Aside f g) : g.lasting = f.lasting := by
  cases h with
  | @testFollowed k d t ms ht h b =>
    obtain ⟨_, _, _, heq⟩ := f.testFollowed_eq k d b ms
    rw [heq]
    rfl
  | testCancelled => exact (Form.of_calm (Form.calm_withoutTimer _)).1
  | streamCancelled => exact (Form.of_calm (Form.calm_withoutTimer _)).1
  | _ => rfl

theorem Move.lasting (h : Move f g) : g.lasting = f.lasting := by
  obtain h | ⟨c, -, rfl⟩ | h := h.calm_cases
  · exact h.lasting
  · rfl
  · exact (Form.of_calm h).1

theorem Move.settings (h : Move f g) : g.settings = f.settings := by
  have heq := congrArg Form.settings h.lasting
  exact heq

theorem Live.FollowsFrom.lasting {α : Type} {x : Live α} (h : FollowsFrom Move f x) :
    (after x f).lasting = f.lasting :=
  h.keeps (P := fun g => g.lasting = f.lasting) (fun _ _ hm hg => hm.lasting.trans hg) rfl

/-! Moves fire the derivations whose values come later, but add none. -/

theorem Aside.streams (h : Aside f g) (hf : f.streams = []) : g.streams = [] := by
  cases h with
  | @testFollowed k d t ms ht h b =>
    obtain ⟨_, _, _, heq⟩ := f.testFollowed_eq k d b ms
    rw [heq]
    exact hf
  | testCancelled => rw [Form.withoutTimer_streams, hf]
  | streamCancelled => rw [Form.withoutTimer_streams, hf]
  | streamPut h => rw [hf] at h; cases h
  | streamTimed => simp [hf]
  | _ => exact hf

theorem Move.streams (h : Move f g) (hf : f.streams = []) : g.streams = [] := by
  obtain h | ⟨c, -, rfl⟩ | h := h.calm_cases
  · exact h.streams hf
  · exact hf
  · exact (Form.of_calm h).2.1.trans hf

/-! What has been compiled stays, and grows by compiling only. -/

theorem Aside.compiled (h : Aside f g) : g.compiled = f.compiled := by
  cases h with
  | @testFollowed k d t ms ht h b =>
    obtain ⟨_, _, _, heq⟩ := f.testFollowed_eq k d b ms
    rw [heq]
  | testCancelled => exact (Form.of_calm (Form.calm_withoutTimer _)).2.2
  | streamCancelled => exact (Form.of_calm (Form.calm_withoutTimer _)).2.2
  | _ => rfl

theorem Move.compiled_eq_or_grows (h : Move f g) :
    g.compiled = f.compiled ∨ f.compiled.Grows f.functions g.compiled := by
  obtain h | ⟨c, hc, rfl⟩ | h := h.calm_cases
  · exact .inl h.compiled
  · exact .inr hc
  · exact .inl ((Form.of_calm h).2.2)

/-! ## Writes -/

theorem Write.streams (h : Write f g) (hf : f.streams = []) : g.streams = [] := by
  cases h with
  | move h => exact h.streams hf
  | wrote v => exact hf

theorem Write.derivations (h : Write f g) : g.derivations = f.derivations := by
  cases h with
  | move h => exact (Form.of_lasting h.lasting).2.2.1
  | wrote v => rfl

theorem Write.version (h : Write f g) : f.version ≤ g.version := by
  cases h with
  | move h => exact (Form.of_lasting h.lasting).2.1.ge
  | wrote v => exact Nat.le_succ _

end FormRules
