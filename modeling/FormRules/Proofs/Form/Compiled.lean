import FormRules.Proofs.Form.Move
import FormRules.Proofs.Store.Table
import Mathlib.Tactic.SplitIfs

/-!
# What has been compiled

`Compiled.Known`: the position that is known for the key of an inquiry is that of the one function
that was compiled for it. Two inquiries with one key are therefore the same. What answers for a validator
goes on to do so.
-/

namespace FormRules.Compiled
variable {c d : Compiled} {key : String} {i j : Inquiry} {l : LogicFunction} {kind : LogicKind}
  {fs : Functions}

/-- Every compiled inquiry is known by its key. -/
def Known (c : Compiled) : Prop :=
  ∀ n key i, c.functions[n]? = some (.inquiry key i) → Table.get? c.known (.inquiry, key) = some n

theorem Known.unique (h : c.Known) (hi : .inquiry key i ∈ c.functions) (hj : .inquiry key j ∈ c.functions) :
    i = j := by
  obtain ⟨m, hm⟩ := List.mem_iff_getElem?.mp hi
  obtain ⟨n, hn⟩ := List.mem_iff_getElem?.mp hj
  obtain rfl : m = n := Option.some.inj ((h m key i hm).symm.trans (h n key j hn))
  rw [hm] at hn
  cases hn
  rfl

theorem mem_intern (h : l ∈ c.functions) (f : LogicFunction) : l ∈ (c.intern kind key f).2.functions := by
  unfold intern
  split
  · exact h
  · exact List.mem_append_left _ h

/-- A function that is added goes under its own key. -/
theorem Known.intern (h : c.Known) {f : LogicFunction}
    (hf : ∀ {j i}, f = .inquiry j i → kind = .inquiry ∧ j = key) : (c.intern kind key f).2.Known := by
  unfold Compiled.intern
  split
  · exact h
  · next hnone =>
    intro n j i hn
    dsimp only at hn ⊢
    rw [List.getElem?_append] at hn
    split_ifs at hn with hlt
    · rw [Table.get?_put_of_ne, h n j i hn]
      intro he
      obtain ⟨rfl, rfl⟩ := Prod.mk.inj he
      rw [h n _ i hn] at hnone
      cases hnone
    · obtain ⟨hlen, hmem⟩ := List.getElem?_eq_some_iff.mp hn
      obtain rfl := List.mem_singleton.mp (hmem ▸ List.getElem_mem hlen)
      obtain ⟨rfl, rfl⟩ := hf rfl
      rw [Table.get?_put_self]
      simp only [List.length_singleton] at hlen
      exact congrArg some (by omega)

/-- What grows has a function under a key, an inquiry under its own, or one more validator. -/
theorem Grows.intern_cases (h : c.Grows fs d) :
    (∃ kind key l, d = (c.intern kind key l).2 ∧ ∀ j i, l = .inquiry j i → kind = .inquiry ∧ j = key) ∨
    ∃ (v : Validator) (w : CompiledValidator), v.compile fs = .ok w ∧ Table.get? c.validators v.key = none ∧
      d = { c with validators := Table.put c.validators v.key w } := by
  cases h with
  | condition q cond =>
    refine .inl ?_
    cases cond with
    | inquiry i => exact ⟨_, _, _, rfl, fun _ _ he => by cases he; exact ⟨rfl, rfl⟩⟩
    | test t => cases q <;> exact ⟨_, _, _, rfl, nofun⟩
  | value e => exact .inl ⟨_, _, _, rfl, nofun⟩
  | validator hnew h => exact .inr ⟨_, _, h, hnew, rfl⟩

theorem Grows.mem (h : c.Grows fs d) (hl : l ∈ c.functions) : l ∈ d.functions := by
  obtain ⟨kind, key, f, rfl, -⟩ | ⟨v, w, -, -, rfl⟩ := h.intern_cases
  · exact mem_intern hl _
  · exact hl

theorem Known.grows (h : c.Known) (hg : c.Grows fs d) : d.Known := by
  obtain ⟨kind, key, f, rfl, hf⟩ | ⟨v, w, -, -, rfl⟩ := hg.intern_cases
  · exact h.intern (hf _ _)
  · exact h

/-! ## Validators -/

theorem validators_intern (c : Compiled) (kind : LogicKind) (key : String) (f : LogicFunction) :
    (c.intern kind key f).2.validators = c.validators := by
  unfold intern
  split <;> rfl

/-- What answers for a validator goes on to do so. -/
theorem Grows.get?_validators {w : CompiledValidator} (h : c.Grows fs d) (hw : Table.get? c.validators key = some w) :
    Table.get? d.validators key = some w := by
  obtain ⟨kind, key', f, rfl, -⟩ | ⟨v, u, -, hnew, rfl⟩ := h.intern_cases
  · rwa [validators_intern]
  · have hne : key ≠ v.key := fun he => by rw [he, hnew] at hw; cases hw
    exact (Table.get?_put_of_ne hne).trans hw

theorem has_of_get? {v : Validator} {w : CompiledValidator} (h : Table.get? c.validators v.key = some w) : c.Has v := by
  rw [Has, Table.has, h]
  rfl

theorem Grows.has {v : Validator} (h : c.Grows fs d) (hv : c.Has v) : d.Has v := by
  obtain ⟨w, hw⟩ := Option.isSome_iff_exists.mp hv
  exact has_of_get? (h.get?_validators hw)

/-- A validator is compiled, or something that answers for it has been, unless it does not compile. -/
theorem validator_cases (c : Compiled) (fs : Functions) (v : Validator) :
    (∃ e, v.compile fs = .error e ∧ c.validator fs v = .error e) ∨
    ∃ w d, (d = c ∨ c.Grows fs d) ∧ d.Has v ∧ c.validator fs v = .ok (w, d) := by
  unfold validator
  dsimp only
  cases hget : Table.get? c.validators v.key with
  | some w => exact .inr ⟨w, c, .inl rfl, has_of_get? hget, rfl⟩
  | none =>
    cases hw : v.compile fs with
    | error e => exact .inl ⟨e, rfl, rfl⟩
    | ok w => exact .inr ⟨w, _, .inr (.validator hget hw), has_of_get? Table.get?_put_self, rfl⟩

end FormRules.Compiled
