import FormRules.Proofs.Number.Decimal
import Mathlib.Data.Option.Basic

/-!
# Numbers read back from their text

The text of a binary64 number is a numeral for it: the digits round to it, and the layout shows the digits
with the point where it belongs.
-/

namespace FormRules

namespace Numeral

/-- The characters of numerals. -/
def IsPlain (c : Char) : Prop := c.isDigit = true ∨ c ∈ ['.', 'e', '-', '+']

variable {c : Char} {cs ds ws ps : List Char}

theorem IsPlain.of_digit (h : c.isDigit = true) : IsPlain c := .inl h

theorem IsPlain.ascii (h : IsPlain c) : 32 < c.toNat ∧ c.toNat < 128 ∧ c ≠ '_' := by
  rcases h with h | h
  · obtain ⟨hlow, hhigh⟩ := Char.isDigit_iff_toNat.mp h
    have h0 : '0'.toNat = 48 := rfl
    have h9 : '9'.toNat = 57 := rfl
    refine ⟨by omega, by omega, ?_⟩
    rintro rfl
    exact absurd h (by decide)
  · simp only [List.mem_cons, List.not_mem_nil, or_false] at h
    rcases h with rfl | rfl | rfl | rfl <;> decide

theorem toAscii_of_plain (h : ∀ c ∈ cs, IsPlain c) : toAscii cs = cs := by
  unfold toAscii
  exact (List.map_congr_left fun c hc => if_pos (h c hc).ascii.2.1).trans (List.map_id' cs)

theorem dropWhile_of_plain (h : ∀ c ∈ cs, IsPlain c) : cs.dropWhile isAsciiBlank = cs := by
  cases cs with
  | nil => rfl
  | cons c cs =>
    have hc := (h c List.mem_cons_self).ascii.1
    refine List.dropWhile_cons_of_neg ?_
    simp only [isAsciiBlank, Bool.or_eq_true, beq_iff_eq, Bool.and_eq_true, decide_eq_true_eq]
    rintro (rfl | ⟨-, hle⟩)
    · exact absurd hc (by decide)
    · omega

theorem bare_of_plain (h : ∀ c ∈ cs, IsPlain c) : bare cs = cs := by
  have hr : ∀ c ∈ cs.reverse, IsPlain c := fun c hc => h c (List.mem_reverse.mp hc)
  rw [bare, toAscii_of_plain h, dropWhile_of_plain h, dropWhile_of_plain hr, List.reverse_reverse]

theorem dropSeparators_of_plain {previous : Char} (hp : previous ≠ '_') (h : ∀ c ∈ cs, IsPlain c) :
    dropSeparators previous cs = some cs := by
  induction cs generalizing previous with
  | nil => exact if_neg hp
  | cons c cs ih =>
    obtain ⟨hc, hcs⟩ := List.forall_mem_cons.mp h
    rw [dropSeparators, if_neg hc.ascii.2.2, if_neg (by simp [hp]), ih hc.ascii.2.2 hcs]
    rfl

/-! ## Reading without a sign -/

theorem takeWhile_digits (cs : List Char) (h : ∀ c ∈ ds, c.isDigit = true) (hc : c.isDigit = false) :
    (ds ++ c :: cs).takeWhile Char.isDigit = ds ∧ (ds ++ c :: cs).dropWhile Char.isDigit = c :: cs := by
  rw [List.takeWhile_append_of_pos h, List.dropWhile_append_of_pos h]
  simp [hc]

theorem readExponent?_signed {s : Char} (hs : s = '-' ∨ s = '+') (hd : ∀ c ∈ ds, c.isDigit = true) (hne : ds ≠ []) :
    readExponent? ('e' :: s :: ds) = some (if s = '-' then -(digitsValue ds : Int) else digitsValue ds) := by
  have hguard : (!ds.isEmpty && ds.all Char.isDigit) = true := by
    rw [Bool.and_eq_true, List.all_eq_true]
    exact ⟨by simp [hne], hd⟩
  rcases hs with rfl | rfl
  · simp only [readExponent?, splitSign, hguard]
    rfl
  · simp only [readExponent?, splitSign, hguard]
    rfl

/-- Digits, a point, and places, with or without an exponent behind them. -/
theorem readUnsigned?_places (negative : Bool) (ws ps rest : List Char) {e : Int} (hw : ∀ c ∈ ws, c.isDigit = true)
    (hp : ∀ c ∈ ps, c.isDigit = true) (hne : ws ≠ []) (hr : rest.takeWhile Char.isDigit = [])
    (he : readExponent? rest = some e) : readUnsigned? negative (ws ++ '.' :: (ps ++ rest)) =
      some (Decimal.toBinary64 negative ⟨digitsValue (ws ++ ps), e - ps.length⟩) := by
  have hrd : rest.dropWhile Char.isDigit = rest := by
    have := List.takeWhile_append_dropWhile (p := Char.isDigit) (l := rest)
    rwa [hr] at this
  obtain ⟨htake, hdrop⟩ := takeWhile_digits (ps ++ rest) hw (by decide : '.'.isDigit = false)
  have hptake : (ps ++ rest).takeWhile Char.isDigit = ps := by
    rw [List.takeWhile_append_of_pos hp, hr, List.append_nil]
  have hpdrop : (ps ++ rest).dropWhile Char.isDigit = rest := by
    rw [List.dropWhile_append_of_pos hp, hrd]
  have hguard : (!(ws.isEmpty && ps.isEmpty)) = true := by simp [hne]
  simp only [readUnsigned?, htake, hdrop, hptake, hpdrop, hguard, he]
  rfl

theorem readUnsigned?_point (negative : Bool) (ws ps : List Char) (hw : ∀ c ∈ ws, c.isDigit = true)
    (hp : ∀ c ∈ ps, c.isDigit = true) (hne : ws ≠ []) : readUnsigned? negative (ws ++ '.' :: ps) =
      some (Decimal.toBinary64 negative ⟨digitsValue (ws ++ ps), -ps.length⟩) := by
  have h := readUnsigned?_places negative ws ps [] (e := 0) hw hp hne rfl rfl
  rwa [List.append_nil, Int.zero_sub] at h

/-- Digits and an exponent without a point. -/
theorem readUnsigned?_exponent {rest : List Char} {e : Int} (negative : Bool) (hw : ∀ c ∈ ws, c.isDigit = true)
    (hne : ws ≠ []) (he : readExponent? ('e' :: rest) = some e) : readUnsigned? negative (ws ++ 'e' :: rest) =
      some (Decimal.toBinary64 negative ⟨digitsValue ws, e⟩) := by
  obtain ⟨htake, hdrop⟩ := takeWhile_digits rest hw (by decide : 'e'.isDigit = false)
  simp only [readUnsigned?, htake, hdrop]
  simp [hne, he]

theorem splitSign_of_digit {d : Char} (h : d.isDigit = true) : splitSign (d :: cs) = (false, d :: cs) := by
  unfold splitSign
  split
  · next heq =>
    cases heq
    exact absurd h (by decide)
  · next heq =>
    cases heq
    exact absurd h (by decide)
  · rfl

/-- A sign in front of what begins with a digit. -/
theorem readDecimal?_signed {x : Binary64} (negative : Bool) (hplain : ∀ c ∈ cs, IsPlain c)
    (hhead : ∃ d rest, cs = d :: rest ∧ d.isDigit = true) (h : readUnsigned? negative cs = some x) :
    readDecimal? (if negative then '-' :: cs else cs) = some x := by
  cases negative with
  | true =>
    have hall : ∀ c ∈ '-' :: cs, IsPlain c := List.forall_mem_cons.mpr ⟨.inr (by decide), hplain⟩
    rw [if_pos rfl, readDecimal?, bare_of_plain hall, dropSeparators_of_plain (by decide) hall]
    exact h
  | false =>
    obtain ⟨d, rest, rfl, hd⟩ := hhead
    rw [if_neg (by decide), readDecimal?, bare_of_plain hplain, dropSeparators_of_plain (by decide) hplain]
    simpa [splitSign_of_digit hd] using h

end Numeral

namespace Binary64
open Numeral
variable {ds : List Char}

/-- The exponent as it is laid out. -/
theorem readExponent?_layout (e : Int) : readExponent? ('e' :: (if e < 0 then '-' else '+') ::
    (if (Nat.toDigits 10 e.natAbs).length < 2 then '0' :: Nat.toDigits 10 e.natAbs
      else Nat.toDigits 10 e.natAbs)) = some e := by
  have hdigits : ∀ c ∈ Nat.toDigits 10 e.natAbs, c.isDigit = true := fun c hc => isDigit_of_mem_toDigits hc
  have hzero : ∀ c ∈ '0' :: Nat.toDigits 10 e.natAbs, c.isDigit = true :=
    List.forall_mem_cons.mpr ⟨rfl, hdigits⟩
  have hvalue : digitsValue ('0' :: Nat.toDigits 10 e.natAbs) = e.natAbs := by
    rw [← List.singleton_append, digitsValue_append, digitsValue_toDigits, show digitsValue ['0'] = 0 from rfl,
      Nat.zero_mul, Nat.zero_add]
  have hsign : (if (if e < 0 then '-' else '+') = '-' then -(e.natAbs : Int) else e.natAbs) = e := by
    by_cases he : e < 0
    · simp only [he, if_true]
      omega
    · rw [if_neg he, if_neg (by decide)]
      omega
  have hs : (if e < 0 then '-' else '+') = '-' ∨ (if e < 0 then '-' else '+') = '+' := by
    split
    · exact .inl rfl
    · exact .inr rfl
  by_cases hlength : (Nat.toDigits 10 e.natAbs).length < 2
  · rw [if_pos hlength, readExponent?_signed hs hzero (List.cons_ne_nil _ _), hvalue, hsign]
  · rw [if_neg hlength, readExponent?_signed hs hdigits Nat.toDigits_ne_nil, digitsValue_toDigits, hsign]

/-- Whether characters are read as the value of a decimal. -/
def Reads (negative : Bool) (cs : List Char) (d : Decimal) : Prop :=
  ∃ e, readUnsigned? negative cs = some (e.toBinary64 negative) ∧ Decimal.Same e d

variable {point : Int}

theorem isDigit_of_mem_replicate {c : Char} {k : Nat} (h : c ∈ List.replicate k '0') : c.isDigit = true := by
  rw [(List.mem_replicate.mp h).2]
  rfl

/-- `0.00ddd`, with `k` zeros behind the point. -/
theorem reads_zeros_digits (negative : Bool) (k : Nat) (hd : ∀ c ∈ ds, c.isDigit = true) :
    Reads negative ('0' :: '.' :: (List.replicate k '0' ++ ds)) ⟨digitsValue ds, -(k + ds.length : Nat)⟩ := by
  have hplaces : ∀ c ∈ List.replicate k '0' ++ ds, c.isDigit = true := fun c hc =>
    (List.mem_append.mp hc).elim isDigit_of_mem_replicate (hd c)
  have hread := readUnsigned?_point negative ['0'] _ (by simp) hplaces (List.cons_ne_nil _ _)
  have hvalue : digitsValue (['0'] ++ (List.replicate k '0' ++ ds)) = digitsValue ds := by
    rw [digitsValue_append, digitsValue_append, digitsValue_replicate, show digitsValue ['0'] = 0 from rfl]
    omega
  rw [hvalue, List.length_append, List.length_replicate] at hread
  exact ⟨_, hread, .refl _⟩

/-- `ddd00.0`, with `k` zeros in front of the point. -/
theorem reads_digits_zeros (negative : Bool) (k : Nat) (hd : ∀ c ∈ ds, c.isDigit = true) (hne : ds ≠ []) :
    Reads negative (ds ++ List.replicate k '0' ++ ['.', '0']) ⟨digitsValue ds, k⟩ := by
  have hwhole : ∀ c ∈ ds ++ List.replicate k '0', c.isDigit = true := fun c hc =>
    (List.mem_append.mp hc).elim (hd c) isDigit_of_mem_replicate
  have hread := readUnsigned?_point negative _ ['0'] hwhole (by simp) (by simp [hne])
  have hvalue : digitsValue (ds ++ List.replicate k '0' ++ ['0']) = digitsValue ds * 10 ^ (k + 1) := by
    rw [digitsValue_append, digitsValue_append, digitsValue_replicate, show digitsValue ['0'] = 0 from rfl,
      List.length_replicate, Nat.pow_succ, ← Nat.mul_assoc]
    rfl
  have hsame := Decimal.same_shift (digitsValue ds) (k + 1) (-1)
  rw [show (-1 : Int) + (k + 1 : Nat) = k by omega] at hsame
  rw [hvalue] at hread
  exact ⟨_, hread, hsame⟩

/-- `dd.ddd`, with `k` digits in front of the point. -/
theorem reads_digits_digits (negative : Bool) (k : Nat) (hd : ∀ c ∈ ds, c.isDigit = true) (hk : 0 < k)
    (hlt : k < ds.length) : Reads negative (ds.take k ++ '.' :: ds.drop k) ⟨digitsValue ds, k - ds.length⟩ := by
  have htake : ds.take k ≠ [] := by
    intro h
    have := congrArg List.length h
    rw [List.length_take, List.length_nil] at this
    omega
  have hwhole : ∀ c ∈ ds.take k, c.isDigit = true := fun c hc => hd c (List.mem_of_mem_take hc)
  have hplaces : ∀ c ∈ ds.drop k, c.isDigit = true := fun c hc => hd c (List.mem_of_mem_drop hc)
  have hread := readUnsigned?_point negative _ _ hwhole hplaces htake
  have hexponent : -((ds.drop k).length : Int) = k - ds.length := by
    rw [List.length_drop]
    omega
  rw [List.take_append_drop, hexponent] at hread
  exact ⟨_, hread, .refl _⟩

/-- `d.dde+XX`, the exponent given. -/
theorem reads_scientific (negative : Bool) {d : Char} {rest : List Char} {e : Int}
    (hd : ∀ c ∈ d :: ds, c.isDigit = true) (he : readExponent? ('e' :: rest) = some e) : Reads negative
      ((match d :: ds with
        | [] => []
        | [d] => [d]
        | d :: ds => d :: '.' :: ds) ++ 'e' :: rest) ⟨digitsValue (d :: ds), e - ds.length⟩ := by
  cases ds with
  | nil =>
    have hread := readUnsigned?_exponent negative hd (List.cons_ne_nil _ _) he
    exact ⟨_, hread, by simp [Decimal.Same]⟩
  | cons d' ds =>
    obtain ⟨hhead, htail⟩ := List.forall_mem_cons.mp hd
    have hread := readUnsigned?_places negative [d] _ _ (by simpa using hhead) htail (List.cons_ne_nil _ _) rfl he
    exact ⟨_, hread, .refl _⟩

/-- Digits that are laid out are read as themselves, with the point where it was put. -/
theorem reads_layout (negative : Bool) (point : Int) (hd : ∀ c ∈ ds, c.isDigit = true) (hne : ds ≠ []) :
    Reads negative (layout ds point) ⟨digitsValue ds, point - ds.length⟩ := by
  unfold layout
  dsimp only
  split
  · split
    · have h := reads_zeros_digits negative (-point).toNat hd
      rwa [show -((-point).toNat + ds.length : Nat) = point - ds.length by omega] at h
    · split
      · have h := reads_digits_zeros negative (point - ds.length).toNat hd hne
        rwa [show ((point - ds.length).toNat : Int) = point - ds.length by omega] at h
      · have h := reads_digits_digits negative point.toNat hd (by omega) (by omega)
        rwa [show (point.toNat : Int) = point by omega] at h
  · cases ds with
    | nil => exact absurd rfl hne
    | cons d ds =>
      have h := reads_scientific negative hd (readExponent?_layout (point - 1))
      rwa [show point - 1 - (ds.length : Int) = point - (d :: ds).length by
        rw [List.length_cons]
        omega] at h

theorem plain_layout (hd : ∀ c ∈ ds, c.isDigit = true) : ∀ c ∈ layout ds point, IsPlain c := by
  have hdigits : ∀ c ∈ ds, IsPlain c := fun c hc => .of_digit (hd c hc)
  have hzeros (k : Nat) : ∀ c ∈ List.replicate k '0', IsPlain c := fun c hc =>
    .of_digit (isDigit_of_mem_replicate hc)
  have hsize (n : Nat) : ∀ c ∈ Nat.toDigits 10 n, IsPlain c := fun c hc => .of_digit (isDigit_of_mem_toDigits hc)
  have hzero : IsPlain '0' := .of_digit rfl
  have hpoint : IsPlain '.' := .inr (by decide)
  have hmark : IsPlain 'e' := .inr (by decide)
  have hsign (b : Prop) [Decidable b] : IsPlain (if b then '-' else '+') := by
    split
    · exact .inr (by decide)
    · exact .inr (by decide)
  unfold layout
  dsimp only
  split
  · split
    · simp only [List.forall_mem_cons, List.forall_mem_append]
      exact ⟨hzero, hpoint, hzeros _, hdigits⟩
    · split
      · simp only [List.forall_mem_cons, List.forall_mem_append]
        exact ⟨⟨hdigits, hzeros _⟩, hpoint, hzero, nofun⟩
      · simp only [List.forall_mem_cons, List.forall_mem_append]
        exact ⟨fun c hc => hdigits c (List.mem_of_mem_take hc), hpoint, fun c hc => hdigits c (List.mem_of_mem_drop hc)⟩
  · rw [List.forall_mem_append]
    refine ⟨?_, List.forall_mem_cons.mpr ⟨hmark, List.forall_mem_cons.mpr ⟨hsign _, ?_⟩⟩⟩
    · match ds with
      | [] => exact nofun
      | [d] => exact hdigits
      | d :: d' :: ds =>
        obtain ⟨hhead, htail⟩ := List.forall_mem_cons.mp hdigits
        exact List.forall_mem_cons.mpr ⟨hhead, List.forall_mem_cons.mpr ⟨hpoint, htail⟩⟩
    · split
      · exact List.forall_mem_cons.mpr ⟨hzero, hsize _⟩
      · exact hsize _

/-- What is laid out shows a point or an exponent. -/
theorem mark_mem_layout : '.' ∈ layout ds point ∨ 'e' ∈ layout ds point := by
  unfold layout
  dsimp only
  split
  · left
    split
    · simp
    · split <;> simp
  · right
    simp

theorem head_layout (hd : ∀ c ∈ ds, c.isDigit = true) (hne : ds ≠ []) :
    ∃ d rest, layout ds point = d :: rest ∧ d.isDigit = true := by
  cases ds with
  | nil => exact absurd rfl hne
  | cons d ds =>
    have hdigit := hd d List.mem_cons_self
    unfold layout
    dsimp only
    split
    · split
      · exact ⟨_, _, rfl, rfl⟩
      · split
        · exact ⟨d, _, rfl, hdigit⟩
        · next hpoint _ =>
          obtain ⟨k, hk⟩ : ∃ k, point.toNat = k + 1 := ⟨point.toNat - 1, by omega⟩
          rw [hk, List.take_succ_cons]
          exact ⟨d, _, rfl, hdigit⟩
    · cases ds with
      | nil => exact ⟨d, _, rfl, hdigit⟩
      | cons d' ds => exact ⟨d, _, rfl, hdigit⟩

/-! ## The digits -/

variable {n : Nat}

-- The places of a unit are named, since their power of five is too large to be evaluated.
theorem shortestFrom_zero : ∃ k : Nat, 0 < k ∧ oneUnits = 2 ^ k ∧
    ∀ n count, shortestFrom n 0 count = ⟨n * Nat.pow 5 k, -k⟩ := by
  simp only [shortestFrom]
  unfold oneUnits
  generalize hk : 1074 = k
  refine ⟨k, by omega, rfl, fun n count => ?_⟩
  congr 1
  omega

theorem readsBack_exact {k : Nat} (hk : 0 < k) (hone : oneUnits = 2 ^ k) (h : Representable n) :
    readsBack n ⟨n * Nat.pow 5 k, -k⟩ = true := by
  have hround : roundUnits (n * 5 ^ k * oneUnits) (10 ^ k) = n := by
    rw [hone, Nat.mul_assoc, ← Nat.mul_pow, show 5 * 2 = 10 from rfl]
    have h1 := roundUnits_mul n 1 (Nat.pow_pos (n := k) (by decide : 0 < 10))
    rw [Nat.one_mul] at h1
    rw [h1, roundUnits_of_representable h]
  unfold readsBack
  rw [Decimal.ratio_of_neg (by simpa using hk)]
  simpa using hround

theorem readsBack_of_mem_neighbours {d : Decimal} {e : Int} (h : d ∈ neighbours n e) : readsBack n d = true := by
  unfold neighbours at h
  exact (List.mem_filter.mp h).2

theorem shortestFrom_readsBack (h : Representable n) (fuel count : Nat) :
    readsBack n (shortestFrom n fuel count) = true := by
  induction fuel generalizing count with
  | zero =>
    obtain ⟨k, hk, hone, hzero⟩ := shortestFrom_zero
    rw [hzero]
    exact readsBack_exact hk hone h
  | succ fuel ih =>
    rw [shortestFrom]
    cases hd : (neighbours n (pointPlace n - count)).head? with
    | none => exact ih _
    | some d => exact readsBack_of_mem_neighbours (List.mem_of_head? hd)

theorem shortest_readsBack {n : Nat} (h : Representable n) : readsBack n (shortest n) = true := by
  rw [shortest, (Decimal.trim_same _ _).readsBack, shortestFrom_readsBack h]

/-- A decimal written out. -/
def written (d : Decimal) : List Char :=
  layout (Nat.toDigits 10 d.digits) ((Nat.toDigits 10 d.digits).length + d.exponent)

theorem reads_written (negative : Bool) (d : Decimal) : Reads negative (written d) d := by
  obtain ⟨e, he, hsame⟩ := reads_layout negative ((Nat.toDigits 10 d.digits).length + d.exponent)
    (fun c hc => isDigit_of_mem_toDigits hc) (Nat.toDigits_ne_nil (n := d.digits))
  rw [digitsValue_toDigits, Int.add_comm, Int.add_sub_cancel] at hsame
  exact ⟨e, he, hsame⟩

theorem plain_written (d : Decimal) : ∀ c ∈ written d, IsPlain c :=
  plain_layout fun _ hc => isDigit_of_mem_toDigits hc

theorem head_written (d : Decimal) : ∃ c cs, written d = c :: cs ∧ c.isDigit = true :=
  head_layout (fun _ hc => isDigit_of_mem_toDigits hc) Nat.toDigits_ne_nil

theorem text_finite {u : Int} {hr : Representable u.natAbs} (hu : u ≠ 0) : (finite u hr).text.toList =
    if u < 0 then '-' :: written (shortest u.natAbs) else written (shortest u.natAbs) := by
  rw [text, if_neg hu, String.toList_ofList]
  rfl

theorem readUnsigned?_written {u : Int} {d : Decimal} (hu : u ≠ 0) (hr : Representable u.natAbs)
    (h : readsBack u.natAbs d = true) : readUnsigned? (u < 0) (written d) = some (.finite u hr) := by
  obtain ⟨e, he, hsame⟩ := reads_written (decide (u < 0)) d
  have hback : readsBack u.natAbs e = true := hsame.readsBack.trans h
  rw [he, Decimal.toBinary64_of_readsBack hu hr hback]

theorem readUnsigned?_zero (negative : Bool) : readUnsigned? negative ['0', '.', '0'] = some (zeroOf negative) := by
  have h := readUnsigned?_point negative ['0'] ['0'] (by simp) (by simp) (List.cons_ne_nil _ _)
  rw [Decimal.toBinary64, if_pos (by decide)] at h
  exact h

theorem plain_zero : ∀ c ∈ ['0', '.', '0'], IsPlain c := by
  simp [IsPlain]

/-- The text of a number is read as the number. -/
theorem readDecimal?_text {x : Binary64} (hx : x.units?.isSome = true) : readDecimal? x.text.toList = some x := by
  cases x with
  | nan => cases hx
  | infinity s => cases hx
  | negativeZero => exact readDecimal?_signed true plain_zero ⟨_, _, rfl, rfl⟩ (readUnsigned?_zero true)
  | finite u hr =>
    by_cases hu : u = 0
    · subst hu
      have h := readDecimal?_signed false plain_zero ⟨_, _, rfl, rfl⟩ (readUnsigned?_zero false)
      rw [text, if_pos rfl]
      exact h
    · have h := readDecimal?_signed (u < 0) (plain_written _) (head_written _)
        (readUnsigned?_written hu hr (shortest_readsBack hr))
      rw [text_finite hu]
      simpa using h

end Binary64
end FormRules
