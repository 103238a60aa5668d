import FormRules.Expr.Cache
import FormRules.Proofs.Results
import FormRules.Proofs.Store.Table
import Mathlib.Data.List.Dedup
import Mathlib.Data.List.DropRight

/-!
# Recently used expressions

The texts in memory are the last ones that were used, in the order of their last use, and what is parsed from
memory comes out as if it was parsed anew. A text counts as used when it has been parsed, from memory or not; a
text that cannot be parsed leaves no trace.
-/

namespace FormRules

section
variable {α : Type} {l : List α} {n : Nat}

theorem length_rtake_le : (l.rtake n).length ≤ n := by
  rw [List.rtake, List.length_drop]
  omega

theorem rtake_of_length_le (h : l.length ≤ n) : l.rtake n = l := by
  rw [List.rtake, Nat.sub_eq_zero_of_le h, List.drop_zero]

theorem rtake_append_of_le {k : List α} (h : n ≤ l.length) : (k ++ l).rtake n = l.rtake n := by
  rw [List.rtake, List.rtake, List.length_append, List.drop_append, List.drop_of_length_le (by omega), List.nil_append]
  congr 1
  omega

variable [DecidableEq α]

theorem dedup_concat (l : List α) (a : α) : (l ++ [a]).dedup = l.dedup.filter (· ≠ a) ++ [a] := by
  induction l with
  | nil => rfl
  | cons b l ih =>
    rw [List.cons_append]
    by_cases hb : b ∈ l
    · rw [List.dedup_cons_of_mem hb, List.dedup_cons_of_mem (List.mem_append_left _ hb), ih]
    by_cases ha : b = a
    · rw [List.dedup_cons_of_notMem hb, List.dedup_cons_of_mem (by simp [ha]), ih]
      simp [ha]
    · rw [List.dedup_cons_of_notMem hb, List.dedup_cons_of_notMem (by simp [hb, ha]), ih]
      simp [ha]

/-- What has been forgotten makes no difference to what is kept. -/
theorem rtake_rtake_concat (h : l.Nodup) (a : α) (n : Nat) :
    ((l.rtake (n + 1)).filter (· ≠ a) ++ [a]).rtake (n + 1) = (l.filter (· ≠ a) ++ [a]).rtake (n + 1) := by
  rw [List.rtake_concat_succ, List.rtake_concat_succ]
  congr 1
  by_cases hl : l.length ≤ n + 1
  · rw [rtake_of_length_le hl]
  · -- of the items that are kept at most one goes, so enough of them are left to hide what was forgotten
    have hdrop : (l.rtake (n + 1)).length = n + 1 := by
      rw [List.rtake, List.length_drop]
      omega
    have hnodup : (l.rtake (n + 1)).Nodup := (List.drop_sublist _ _).nodup h
    have herase : (l.rtake (n + 1)).filter (· ≠ a) = (l.rtake (n + 1)).erase a := by
      rw [hnodup.erase_eq_filter]
      simp [bne, beq_eq_decide]
    have hlong : n ≤ ((l.rtake (n + 1)).filter (· ≠ a)).length := by
      have hlength : (l.rtake (n + 1)).length - 1 ≤ ((l.rtake (n + 1)).erase a).length := List.le_length_erase
      rw [herase]
      omega
    conv_rhs => rw [← List.take_append_drop (l.length - (n + 1)) l, List.filter_append]
    exact (rtake_append_of_le hlong).symm

end

namespace Expr

/-- The text of the expression that a value writes, if it writes one. -/
def writtenText? (source : Value) : Option String :=
  match source with
  | .text s => if (parse s).isOk then some s.trimBlank else none
  | _ => none

namespace ParseCache

/-- The memory that was empty before all these values were parsed, the first one first. -/
def run (limit : Int) (sources : List Value) : ParseCache := sources.foldl (fun c v => (c.parseValue limit v).2) {}

/-- The trees in memory are those of their texts. -/
def Faithful (c : ParseCache) : Prop := ∀ e ∈ c.entries, e.1 ≠ "" ∧ parseTrimmed e.1 = .ok e.2.node

variable {c : ParseCache} {limit : Int} {source text : String} {tree : Parsed} {node : Node} {f : Fault} {n : Nat}

theorem texts_touch : (c.touch text tree).texts = c.texts.filter (· ≠ text) ++ [text] := by
  simp [touch, texts, Table.erase, List.filter_map, Function.comp_def]

theorem texts_add : (c.add n text node).texts = c.texts.drop (c.size + 1 - n) ++ [text] := by
  simp [add, texts, size]

/-- The texts in memory once one has been used, of which only the last ones are kept. -/
def used (texts : List String) (text : String) (n : Nat) : List String := (texts.filter (· ≠ text) ++ [text]).rtake n

theorem has_iff_mem_texts : (Table.get? c.entries text).isSome = true ↔ text ∈ c.texts := Table.has_iff_mem

theorem texts_touch_of_mem (hm : text ∈ c.texts) (hn : c.texts.length ≤ n) :
    (c.touch text tree).texts = used c.texts text n := by
  have hlt : (c.texts.filter (· ≠ text)).length < c.texts.length :=
    List.length_filter_lt_length_iff_exists.mpr ⟨text, hm, by simp⟩
  rw [texts_touch, used, rtake_of_length_le]
  rw [List.length_append, List.length_singleton]
  omega

theorem texts_add_of_not_mem (hm : text ∉ c.texts) (h1 : 1 ≤ n) (hn : c.texts.length ≤ n) :
    (c.add n text node).texts = used c.texts text n := by
  obtain ⟨m, rfl⟩ : ∃ m, n = m + 1 := ⟨n - 1, by omega⟩
  have hfilter : c.texts.filter (· ≠ text) = c.texts :=
    List.filter_eq_self.mpr fun t ht => decide_eq_true (ne_of_mem_of_not_mem ht hm)
  rw [texts_add, used, hfilter, List.rtake_concat_succ, List.rtake]
  simp [size, texts]

theorem parse_error (hf : c.Faithful) (h : Expr.parse source = .error f) : c.parse limit source = (.error f, c) := by
  unfold Expr.parse at h
  unfold parse
  split at h
  · next hempty =>
    cases h
    rw [hempty]
    rfl
  · next hempty =>
    dsimp only
    rw [if_neg hempty]
    split
    · next tree hget =>
      have hparse := (hf _ (Table.mem_of_get? hget)).2
      exact absurd (h.symm.trans hparse) nofun
    · rw [h]

/-- A text that writes an expression is parsed as if there was no memory, and has been used then. -/
theorem parse_ok (hf : c.Faithful) (hn : c.texts.length ≤ (max 1 limit).toNat) (h : Expr.parse source = .ok node) :
    ∃ tree d, c.parse limit source = (.ok tree, d) ∧ tree.node = node ∧ d.Faithful ∧
      d.texts = used c.texts source.trimBlank (max 1 limit).toNat := by
  unfold Expr.parse at h
  split at h
  · cases h
  next hempty =>
  unfold parse
  dsimp only
  rw [if_neg hempty]
  split
  · next tree hget =>
    have hmem := Table.mem_of_get? hget
    have hnode : tree.node = node := Except.ok.inj ((hf _ hmem).2.symm.trans h)
    refine ⟨tree, _, rfl, hnode, fun e he => ?_, texts_touch_of_mem (List.mem_map.mpr ⟨_, hmem, rfl⟩) hn⟩
    rcases List.mem_append.mp he with he | he
    · exact hf e (Table.mem_of_mem_erase he)
    · obtain rfl := List.mem_singleton.mp he
      exact ⟨hempty, hnode ▸ h⟩
  · next hget =>
    have hmem : source.trimBlank ∉ c.texts := fun hm => by
      rw [← has_iff_mem_texts, hget] at hm
      cases hm
    rw [h]
    refine ⟨_, _, rfl, rfl, fun e he => ?_, texts_add_of_not_mem hmem (by omega) hn⟩
    rcases List.mem_append.mp he with he | he
    · exact hf e (List.mem_of_mem_drop he)
    · obtain rfl := List.mem_singleton.mp he
      exact ⟨hempty, h⟩

/-- What has been parsed comes out as without a memory, and counts as used if it writes an expression. -/
theorem parseValue_cases (hf : c.Faithful) (hn : c.texts.length ≤ (max 1 limit).toNat) (source : Value) :
    (∃ f, Expr.parseValue source = .error f ∧ writtenText? source = none ∧
      c.parseValue limit source = (.error f, c)) ∨
    ∃ text tree d, Expr.parseValue source = .ok tree.node ∧ writtenText? source = some text ∧
      c.parseValue limit source = (.ok tree, d) ∧ d.Faithful ∧ d.texts = used c.texts text (max 1 limit).toNat := by
  cases source with
  | text s =>
    cases hp : Expr.parse s with
    | error f => exact .inl ⟨f, hp, by simp [writtenText?, hp, Except.isOk, Except.toBool], parse_error hf hp⟩
    | ok node =>
      obtain ⟨tree, d, hparse, rfl, hd, htexts⟩ := parse_ok hf hn hp
      exact .inr ⟨_, tree, d, hp, by simp [writtenText?, hp, Except.isOk, Except.toBool], hparse, hd, htexts⟩
  | _ => exact .inl ⟨_, rfl, rfl, rfl⟩

theorem run_concat (limit : Int) (sources : List Value) (source : Value) :
    run limit (sources ++ [source]) = ((run limit sources).parseValue limit source).2 := by
  rw [run, List.foldl_append]
  rfl

/-- What is in memory after any number of calls are the last of the texts that were used. -/
theorem faithful_run (limit : Int) (sources : List Value) : (run limit sources).Faithful ∧
    (run limit sources).texts = (sources.filterMap writtenText?).dedup.rtake (max 1 limit).toNat := by
  -- the last call is made with the memory that the others have left
  induction sources using List.reverseRecOn with
  | nil => exact ⟨nofun, by simp [run, texts]⟩
  | append_singleton sources source ih =>
    obtain ⟨hf, htexts⟩ := ih
    have hn : (run limit sources).texts.length ≤ (max 1 limit).toNat := htexts ▸ length_rtake_le
    rw [run_concat, List.filterMap_append]
    obtain ⟨f, -, hnone, hc⟩ | ⟨text, tree, d, -, hsome, hc, hd, hused⟩ := parseValue_cases hf hn source
    · rw [hc]
      exact ⟨hf, by simp [hnone, htexts]⟩
    · obtain ⟨m, hm⟩ : ∃ m, (max 1 limit).toNat = m + 1 := ⟨(max 1 limit).toNat - 1, by omega⟩
      rw [hc]
      refine ⟨hd, ?_⟩
      rw [hused, htexts, used, List.filterMap_cons_some hsome, List.filterMap_nil, dedup_concat, hm]
      exact rtake_rtake_concat (List.nodup_dedup _) text m

/-- The memory holds the texts of the expressions that were used last, in the order of their last use, and what is
parsed with it comes out as without it; a failure leaves it as it is. -/
theorem texts_run (limit : Int) (sources : List Value) :
    (run limit sources).texts = (sources.filterMap writtenText?).dedup.rtake (max 1 limit).toNat ∧
    ∀ source, ((run limit sources).parseValue limit source).1.map Parsed.node = Expr.parseValue source ∧
      ((Expr.parseValue source).isOk = false →
        ((run limit sources).parseValue limit source).2 = run limit sources) := by
  obtain ⟨hf, htexts⟩ := faithful_run limit sources
  refine ⟨htexts, fun source => ?_⟩
  have hn : (run limit sources).texts.length ≤ (max 1 limit).toNat := htexts ▸ length_rtake_le
  obtain ⟨f, hp, -, hc⟩ | ⟨text, tree, d, hp, -, hc, -, -⟩ := parseValue_cases hf hn source
  · rw [hc, hp]
    exact ⟨rfl, fun _ => rfl⟩
  · rw [hc, hp]
    exact ⟨rfl, nofun⟩

/-- A text that is used again stays when another one has to go, and what is no expression does not count. -/
theorem texts_run_again :
    (run 2 [.text "a", .text "b", .text " a ", .text "b +", .null, .text "c"]).texts = ["a", "c"] ∧
    (Expr.parseValue (.text "b +")).isOk = false ∧
    ((run 2 [.text "a"]).parseValue 2 (.text "b +")).2 = run 2 [.text "a"] := by
  have hfails : (Expr.parseValue (.text "b +")).isOk = false := by decide +kernel
  refine ⟨?_, hfails, ((texts_run 2 [.text "a"]).2 (.text "b +")).2 hfails⟩
  rw [(texts_run 2 _).1]
  decide +kernel

end ParseCache
end Expr
end FormRules
