import FormRules.Request.Query
import FormRules.Value.Json
import Mathlib.Data.List.Basic
import Mathlib.Logic.Function.Basic

/-!
# Query strings tell parameters apart

Every byte is written so that it can be told where it ends, without the characters that stand between names and
texts. One URL with parameters behind it is therefore the URL of one list of parameters only.
-/

namespace FormRules

/-! ## Bytes of a text -/

theorem toList_loop (bytes : ByteArray) (i : Nat) (r : List UInt8) :
    ByteArray.toList.loop bytes i r = r.reverse ++ bytes.data.toList.drop i := by
  induction i, r using ByteArray.toList.loop.induct bytes with
  | case1 i r h ih =>
    have hi : i < bytes.data.toList.length := h
    have hget : bytes.get! i = bytes.data.toList[i] := getElem!_pos bytes.data i h
    rw [ByteArray.toList.loop.eq_1, if_pos h, ih, hget, List.drop_eq_getElem_cons hi]
    simp
  | case2 i r h =>
    rw [ByteArray.toList.loop.eq_1, if_neg h, List.drop_of_length_le (Nat.not_lt.mp h), List.append_nil]

theorem toUTF8_injective {s t : String} (h : s.toUTF8.toList = t.toUTF8.toList) : s = t := by
  rw [ByteArray.toList, ByteArray.toList, toList_loop, toList_loop] at h
  exact String.toByteArray_inj.mp (ByteArray.ext (Array.toList_inj.mp h))

namespace Query
variable {a b : UInt8} {c : Char} {r s : List Char} {p q : String × String} {ps qs : List (String × String)}

/-- The byte that characters stand for. -/
def readByte : List Char → Option Nat
  | [c] => some (if c = '+' then 32 else c.toNat)
  | [_, c, d] => do return (← Json.hexValue? c) * 16 + (← Json.hexValue? d)
  | _ => none

theorem hexDigit_spec {n : Nat} (h : n < 16) :
    Json.hexValue? (hexDigit n) = some n ∧ hexDigit n ≠ '&' ∧ hexDigit n ≠ '=' := by
  have all : ∀ n : Fin 16, Json.hexValue? (hexDigit n) = some n.val ∧ hexDigit n ≠ '&' ∧ hexDigit n ≠ '=' := by decide
  exact all ⟨n, h⟩

theorem toNat_ofNat_byte (b : UInt8) : (Char.ofNat b.toNat).toNat = b.toNat := by
  rw [Char.ofNat, dif_pos (.inl (Nat.lt_trans b.toNat_lt (by decide)))]
  rfl

theorem ne_of_isPlainByte (h : isPlainByte b = true) (hc : isPlainByte (.ofNat c.toNat) = false) :
    Char.ofNat b.toNat ≠ c := by
  rintro rfl
  rw [toNat_ofNat_byte, UInt8.ofNat_toNat, h] at hc
  cases hc

/-- A byte is read back; where it ends is told by the character that it begins with, and no separator is in it. -/
theorem encodeByte_spec (b : UInt8) : readByte (encodeByte b) = some b.toNat ∧
    (∃ c ∈ (encodeByte b).head?, (encodeByte b).length = if c = '%' then 3 else 1) ∧
    ∀ c ∈ encodeByte b, c ≠ '&' ∧ c ≠ '=' := by
  have hlt : b.toNat < 256 := b.toNat_lt
  unfold encodeByte
  split
  · next hplain =>
    refine ⟨?_, ⟨_, rfl, ?_⟩, fun c hc => ?_⟩
    · rw [readByte, if_neg (ne_of_isPlainByte hplain (by decide)), toNat_ofNat_byte]
    · rw [if_neg (ne_of_isPlainByte hplain (by decide))]
      rfl
    · obtain rfl := List.mem_singleton.mp hc
      exact ⟨ne_of_isPlainByte hplain (by decide), ne_of_isPlainByte hplain (by decide)⟩
  split
  · next hblank =>
    rw [hblank]
    refine ⟨rfl, ⟨_, rfl, rfl⟩, fun c hc => ?_⟩
    obtain rfl := List.mem_singleton.mp hc
    exact ⟨by decide, by decide⟩
  · obtain ⟨hhigh, hhigh'⟩ := hexDigit_spec (n := b.toNat / 16) (by omega)
    obtain ⟨hlow, hlow'⟩ := hexDigit_spec (n := b.toNat % 16) (by omega)
    refine ⟨?_, ⟨_, rfl, rfl⟩, fun c hc => ?_⟩
    · rw [readByte, hhigh, hlow]
      exact congrArg some (Nat.div_add_mod' _ _)
    · simp only [List.mem_cons, List.not_mem_nil, or_false] at hc
      rcases hc with rfl | rfl | rfl
      · decide
      · exact hhigh'
      · exact hlow'

theorem encodeByte_cancel (h : encodeByte a ++ r = encodeByte b ++ s) : a = b ∧ r = s := by
  obtain ⟨ha, ⟨c, hc, hac⟩, -⟩ := encodeByte_spec a
  obtain ⟨hb, ⟨d, hd, hbd⟩, -⟩ := encodeByte_spec b
  -- the first character tells how many belong to the byte
  have hhead : c = d := by
    have hfirst := congrArg List.head? h
    rw [List.head?_append, List.head?_append, Option.mem_def.mp hc, Option.mem_def.mp hd] at hfirst
    exact Option.some.inj hfirst
  obtain ⟨hab, hrs⟩ := List.append_inj h (by rw [hac, hbd, hhead])
  rw [hab, hb] at ha
  exact ⟨UInt8.toNat_inj.mp (Option.some.inj ha).symm, hrs⟩

theorem flatMap_encodeByte_injective : Function.Injective (List.flatMap encodeByte) := by
  intro as
  induction as with
  | nil =>
    intro bs h
    cases bs with
    | nil => rfl
    | cons b bs =>
      obtain ⟨-, ⟨c, hc, -⟩, -⟩ := encodeByte_spec b
      have hempty : encodeByte b = [] := (List.append_eq_nil_iff.mp h.symm).1
      rw [hempty] at hc
      cases hc
  | cons a as ih =>
    intro bs h
    cases bs with
    | nil =>
      obtain ⟨-, ⟨c, hc, -⟩, -⟩ := encodeByte_spec a
      have hempty : encodeByte a = [] := (List.append_eq_nil_iff.mp h).1
      rw [hempty] at hc
      cases hc
    | cons b bs =>
      obtain ⟨rfl, hrest⟩ := encodeByte_cancel h
      rw [ih hrest]

theorem encode_toList (t : String) : (encode t).toList = t.toUTF8.toList.flatMap encodeByte := String.toList_ofList

theorem encode_injective : Function.Injective encode := fun t u h => by
  have hbytes := congrArg String.toList h
  rw [encode_toList, encode_toList] at hbytes
  exact toUTF8_injective (flatMap_encodeByte_injective hbytes)

theorem not_separator_of_mem_encode {t : String} (h : c ∈ (encode t).toList) : c ≠ '&' ∧ c ≠ '=' := by
  rw [encode_toList] at h
  obtain ⟨b, -, hb⟩ := List.mem_flatMap.mp h
  exact (encodeByte_spec b).2.2 c hb

/-! ## Parameters -/

/-- The text of a parameter. -/
def pairText (p : String × String) : String := encode p.1 ++ "=" ++ encode p.2

theorem splitOn_pairText (p : String × String) :
    (pairText p).toList.splitOn '=' = [(encode p.1).toList, (encode p.2).toList] := by
  have hpair : (pairText p).toList = ['='].intercalate [(encode p.1).toList, (encode p.2).toList] := by
    simp [pairText, List.intercalate]
  rw [hpair]
  refine List.splitOn_intercalate '=' (fun l hl hmem => ?_) (by simp)
  simp only [List.mem_cons, List.not_mem_nil, or_false] at hl
  rcases hl with rfl | rfl <;> exact (not_separator_of_mem_encode hmem).2 rfl

theorem pairText_injective : Function.Injective pairText := by
  intro p q h
  have hsplit := splitOn_pairText p
  rw [h, splitOn_pairText] at hsplit
  simp only [List.cons.injEq, String.toList_inj, and_true] at hsplit
  exact Prod.ext (encode_injective hsplit.1.symm) (encode_injective hsplit.2.symm)

theorem not_mem_pairText (p : String × String) : '&' ∉ (pairText p).toList := by
  intro h
  simp only [pairText, String.toList_append, List.mem_append] at h
  rcases h with (h | h) | h
  · exact (not_separator_of_mem_encode h).1 rfl
  · exact absurd h (by decide)
  · exact (not_separator_of_mem_encode h).1 rfl

theorem splitOn_encodeAll (h : ps ≠ []) : (encodeAll ps).toList.splitOn '&' = ps.map fun p => (pairText p).toList := by
  have hall : (encodeAll ps).toList = ['&'].intercalate (ps.map fun p => (pairText p).toList) := by
    rw [encodeAll, String.toList_intercalate, List.map_map]
    rfl
  rw [hall]
  refine List.splitOn_intercalate '&' (fun l hl => ?_) (by simpa using h)
  obtain ⟨p, -, rfl⟩ := List.mem_map.mp hl
  exact not_mem_pairText p

theorem encodeAll_cancel (hp : ps ≠ []) (hq : qs ≠ []) (h : encodeAll ps = encodeAll qs) : ps = qs := by
  have hsplit := splitOn_encodeAll hp
  rw [h, splitOn_encodeAll hq] at hsplit
  refine List.map_injective_iff.mpr ?_ hsplit.symm
  exact fun p q hpq => pairText_injective (String.toList_inj.mp hpq)

theorem append_nil (url : String) : append url [] = url := rfl

theorem append_of_ne_nil (url : String) (h : ps ≠ []) :
    append url ps = url ++ ((if url.toList.contains '?' then "&" else "?") ++ encodeAll ps) := by
  rw [append, if_neg (by simpa using h), String.append_assoc]

theorem append_ne_self (url : String) (h : ps ≠ []) : append url ps ≠ url := by
  intro heq
  rw [append_of_ne_nil url h, String.append_eq_left_iff, String.append_eq_empty_iff] at heq
  have hsep := heq.1
  split at hsep <;> exact absurd hsep (by decide)

/-- Two lists of parameters behind one URL are told apart. -/
theorem append_injective (url : String) : Function.Injective (append url) := by
  intro ps qs h
  by_cases hp : ps = []
  · by_cases hq : qs = []
    · rw [hp, hq]
    · rw [hp, append_nil] at h
      exact absurd h.symm (append_ne_self url hq)
  · by_cases hq : qs = []
    · rw [hq, append_nil] at h
      exact absurd h (append_ne_self url hp)
    · rw [append_of_ne_nil url hp, append_of_ne_nil url hq, String.append_right_inj, String.append_right_inj] at h
      exact encodeAll_cancel hp hq h

end Query
end FormRules
