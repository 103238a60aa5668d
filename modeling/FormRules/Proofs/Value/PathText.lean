import FormRules.Proofs.Number.Reading
import FormRules.Proofs.Results
import FormRules.Value.Path

/-!
# Paths as texts

The text of a path is read as its keys if every key is plain: an index, or a name that can stand between points without
being taken for an index. No other keys survive being written, except a single name that is no segment of a path. An empty
name leaves no trace, a name of figures comes back as an index, and a name with points or brackets falls apart.
-/

namespace FormRules
open Text Numeral

/-- Whether a key is read as itself where it has been written into a path; an index has to be a numeral. -/
def Key.IsPlain : Key → Prop
  | .index n => digitCount n.natAbs ≤ 4300
  | .name s => s ≠ "" ∧ s.toList.all Path.isPlain = true ∧ s.toList.all isFigure = false
  | _ => False

/-- What is written for a key behind another one. -/
def Key.written : Key → List Char
  | .index n => '[' :: (intChars n ++ [']'])
  | k => '.' :: k.text.toList

/-! ## Numerals -/

theorem digitsValue_lt {cs : List Char} (h : cs.all Char.isDigit = true) : digitsValue cs < 10 ^ cs.length := by
  induction cs with
  | nil => decide
  | cons c cs ih =>
    rw [List.all_cons, Bool.and_eq_true] at h
    have hc : digitsValue [c] < 10 := by
      have hlt : c.toNat ≤ 57 := by
        have hd := h.1
        simp only [Char.isDigit, Bool.and_eq_true, decide_eq_true_eq] at hd
        exact UInt32.le_iff_toNat_le.mp hd.2
      show 10 * 0 + (c.toNat - 48) < 10
      omega
    have hsplit := digitsValue_append [c] cs
    rw [List.singleton_append] at hsplit
    rw [hsplit, List.length_cons, Nat.pow_succ]
    have := ih h.2
    have : digitsValue [c] * 10 ^ cs.length ≤ 9 * 10 ^ cs.length := Nat.mul_le_mul_right _ (by omega)
    omega

theorem digitCount_digitsValue_le {cs : List Char} {k : Nat} (h : cs.all Char.isDigit = true) (hk : 0 < k)
    (hlength : cs.length ≤ k) : digitCount (digitsValue cs) ≤ k :=
  (Nat.length_toDigits_le_iff (by decide) hk).mpr ((digitsValue_lt h).trans_le (Nat.pow_le_pow_right (by decide) hlength))

/-- What is read as an integer can be written as a numeral. -/
theorem digitCount_of_readInt? {cs : List Char} {n : Int} (h : readInt? cs = some n) : digitCount n.natAbs ≤ 4300 := by
  unfold readInt? at h
  obtain ⟨ds, -, h⟩ := Option.bind_eq_some_iff.mp h
  generalize splitSign ds = r at h
  obtain ⟨negative, digits⟩ := r
  obtain ⟨_, hguard, h⟩ := Option.bind_eq_some_iff.mp h
  have hg : (!digits.isEmpty && digits.all Char.isDigit && decide (digits.length ≤ 4300)) = true := by
    by_contra hg
    simp [guard, hg] at hguard
  simp only [Bool.and_eq_true, decide_eq_true_eq] at hg
  have habs : n.natAbs = digitsValue digits := by
    obtain rfl := (Option.some.inj h).symm
    cases negative <;> simp
  rw [habs]
  exact digitCount_digitsValue_le hg.1.2 (by decide) hg.2

namespace Path
variable {as bs cs ys zs rest : List Char} {keys ks : List Key} {k : Key} {s : String} {n : Int} {fuel : Nat}
  {segment : Segment} {c q : Char}

/-! ## What is written -/

theorem append_name (out s : String) : append out (.name s) = if out = "" then s else out ++ "." ++ s := rfl

theorem toList_foldl_append {out : String} (h : out ≠ "") (ks : List Key) :
    (ks.foldl append out).toList = out.toList ++ ks.flatMap Key.written := by
  induction ks generalizing out with
  | nil => simp
  | cons k ks ih =>
    have hout : (append out k).toList = out.toList ++ k.written := by
      cases k with
      | index n => simp [append, Key.written, intText_toList]
      | _ => simp [append, Key.written, h]
    have hne : append out k ≠ "" := by
      intro he
      rw [he] at hout
      exact h (String.toList_eq_nil_iff.mp (List.append_eq_nil_iff.mp hout.symm).1)
    rw [List.foldl_cons, ih hne, hout, List.flatMap_cons, List.append_assoc]

theorem format_index : (format (.index n :: ks)).toList = (Key.index n).written ++ ks.flatMap Key.written := by
  have hout : (append "" (.index n)).toList = (Key.index n).written := by simp [append, Key.written, intText_toList]
  have hne : append "" (.index n) ≠ "" := by
    intro he
    rw [he] at hout
    cases hout
  rw [format, List.foldl_cons, toList_foldl_append hne, hout]

theorem format_name (h : s ≠ "") : (format (.name s :: ks)).toList = s.toList ++ ks.flatMap Key.written := by
  rw [format, List.foldl_cons, append_name, if_pos rfl, toList_foldl_append h]

/-- An empty name in front leaves no trace. -/
theorem format_replicate (m : Nat) : format (List.replicate m (.name "") ++ ks) = format ks := by
  induction m with
  | zero => rfl
  | succ m ih => exact ih

/-- Behind a key there stands a separator, or nothing. -/
theorem head_written (ks : List Key) : ∀ c ∈ (ks.flatMap Key.written).head?, c = '.' ∨ c = '[' := by
  cases ks with
  | nil => exact nofun
  | cons k ks =>
    cases k with
    | index n => intro c hc; exact .inr (Option.some.inj hc).symm
    | _ => intro c hc; exact .inl (Option.some.inj hc).symm

/-! ## Reading segments -/

theorem span_append {p : Char → Bool} (h : as.all p = true) (hb : ∀ c ∈ bs.head?, p c = false) :
    (as ++ bs).takeWhile p = as ∧ (as ++ bs).dropWhile p = bs := by
  have hbs : bs.takeWhile p = [] := by
    cases bs with
    | nil => rfl
    | cons b bs => exact List.takeWhile_cons_of_neg (by simp [hb b rfl])
  have htake : (as ++ bs).takeWhile p = as := by
    rw [List.takeWhile_append_of_pos (List.all_eq_true.mp h), hbs, List.append_nil]
  have hsplit := List.takeWhile_append_dropWhile (p := p) (l := as ++ bs)
  rw [htake] at hsplit
  exact ⟨htake, List.append_cancel_left hsplit⟩

theorem not_isPlain (h : c = '.' ∨ c = '[') : isPlain c = false := by
  rcases h with rfl | rfl <;> rfl

theorem readPlain_append (hne : as ≠ []) (h : as.all isPlain = true) (hb : ∀ c ∈ bs.head?, c = '.' ∨ c = '[') :
    readPlain (as ++ bs) = some (.plain as, bs) := by
  obtain ⟨htake, hdrop⟩ := span_append h fun c hc => not_isPlain (hb c hc)
  unfold readPlain
  rw [htake, hdrop, if_neg (by simp [hne])]

theorem of_readPlain (h : readPlain cs = some (segment, rest)) :
    ∃ name, segment = .plain name ∧ name ≠ [] ∧ name.all isPlain = true ∧ cs = name ++ rest := by
  unfold readPlain at h
  dsimp only at h
  split at h
  · cases h
  · next hne =>
    cases h
    exact ⟨cs.takeWhile isPlain, rfl, by simpa using hne, List.all_takeWhile, List.takeWhile_append_dropWhile.symm⟩

theorem readSegment_plain (h : isPlain c = true) : readSegment (c :: cs) = readPlain (c :: cs) := by
  unfold readSegment
  split
  · next he => cases he; cases h
  · next he => cases he; cases h
  · rfl

theorem isDecimal_of_isDigit (h : c.isDigit = true) : isDecimal c = true := by
  rw [isDecimal, digitValue?, if_pos h]
  rfl

theorem readIndex_intChars (n : Int) (rest : List Char) :
    readIndex (intChars n ++ ']' :: rest) = some (.index (intChars n), rest) := by
  have hall : (Nat.toDigits 10 n.natAbs).all isDecimal = true :=
    List.all_eq_true.mpr fun c hc => isDecimal_of_isDigit (isDigit_of_mem_toDigits hc)
  have hbracket : ∀ c ∈ (']' :: rest).head?, isDecimal c = false := by
    rintro c ⟨⟩
    decide
  obtain ⟨htake, hdrop⟩ := span_append hall hbracket
  have hne : (Nat.toDigits 10 n.natAbs).isEmpty = false := by simp [Nat.toDigits_ne_nil]
  have hclose : closeBracket (']' :: rest) = some rest := rfl
  unfold intChars
  split
  · simp only [List.cons_append, readIndex, htake, hdrop, hne, hclose]
    rfl
  · obtain ⟨d, ds, hd, hdigit⟩ := head_toDigits n.natAbs
    have hminus : d ≠ '-' := by
      rintro rfl
      cases hdigit
    rw [hd] at htake hdrop hne ⊢
    unfold readIndex
    split
    next he =>
    split at he
    · next hc => exact absurd (List.cons.inj hc).1 hminus
    · cases he
      simp only [htake, hdrop, hne, hclose]
      rfl

theorem readSegment_index (n : Int) (rest : List Char) :
    readSegment ((Key.index n).written ++ rest) = some (.index (intChars n), rest) := by
  obtain ⟨c, cs, hcs, hc⟩ := head_intChars n
  have hblank : isBlank c = false :=
    Numeral.IsPlain.not_blank (hc.imp id fun (h : c = '-') => by rw [h]; decide)
  have htrim : trimLeft (intChars n ++ ']' :: rest) = intChars n ++ ']' :: rest := by
    rw [hcs, List.cons_append]
    exact List.dropWhile_cons_of_neg (by simp [hblank])
  have hread : readSegment ('[' :: (intChars n ++ ']' :: rest)) = readIndex (intChars n ++ ']' :: rest) := by
    unfold readSegment
    simp only [htrim]
    split
    · next he =>
      rw [hcs] at he
      rw [(List.cons.inj he).1] at hc
      rcases hc with hc | hc <;> cases hc
    · next he =>
      rw [hcs] at he
      rw [(List.cons.inj he).1] at hc
      rcases hc with hc | hc <;> cases hc
    · rfl
  rw [Key.written, List.cons_append, List.append_assoc, List.singleton_append, hread, readIndex_intChars]

/-- How a segment can stand in front of what is left of a text. -/
inductive Stands : List Char → Segment → List Char → Prop
  | index {digits rest : List Char} (front : List Char) (h : front ≠ []) : Stands (front ++ rest) (.index digits) rest
  | quoted {name rest : List Char} (q : Char) (lead trail : List Char) (hq : q = '\'' ∨ q = '"')
      (hlead : lead.all isBlank = true) (htrail : trail.all isBlank = true) (hname : q ∉ name) :
      Stands ('[' :: (lead ++ q :: (name ++ q :: (trail ++ ']' :: rest)))) (.quoted name) rest
  | plain {name rest : List Char} (hne : name ≠ []) (h : name.all isPlain = true) : Stands (name ++ rest) (.plain name) rest
  | pointed {name rest : List Char} (hne : name ≠ []) (h : name.all isPlain = true) :
      Stands ('.' :: (name ++ rest)) (.plain name) rest

theorem of_closeBracket (h : closeBracket cs = some rest) :
    ∃ trail : List Char, trail.all isBlank = true ∧ cs = trail ++ ']' :: rest := by
  unfold closeBracket at h
  split at h
  · next htrim =>
    cases h
    refine ⟨cs.takeWhile isBlank, List.all_takeWhile, ?_⟩
    rw [← htrim]
    exact List.takeWhile_append_dropWhile.symm
  · cases h

theorem Stands.of_readQuoted (hq : q = '\'' ∨ q = '"') (hlead : as.all isBlank = true)
    (h : readQuoted q cs = some (segment, rest)) : Stands ('[' :: (as ++ q :: cs)) segment rest := by
  unfold readQuoted at h
  split at h
  · cases h
  · next d ds hdrop =>
    obtain ⟨_, hclose, he⟩ := Option.map_eq_some_iff.mp h
    cases he
    obtain ⟨trail, htrail, rfl⟩ := of_closeBracket hclose
    have hd : d = q := by
      have hhead := List.head?_dropWhile_not (fun c => decide (c ≠ q)) cs
      rw [hdrop] at hhead
      simpa using hhead
    subst hd
    have hname : d ∉ cs.takeWhile (fun c => decide (c ≠ d)) := fun hmem => by simpa using List.mem_takeWhile_imp hmem
    have hsplit : Stands _ _ rest := .quoted d as trail hq hlead htrail hname
    rwa [← hdrop, List.takeWhile_append_dropWhile] at hsplit

theorem Stands.of_readIndex (h : readIndex cs = some (segment, rest)) : Stands ('[' :: (as ++ cs)) segment rest := by
  unfold readIndex at h
  split at h
  next sign body hsign =>
  have hcs : cs = sign ++ body := by
    split at hsign <;> (cases hsign; rfl)
  dsimp only at h
  split at h
  · cases h
  · obtain ⟨_, hclose, he⟩ := Option.map_eq_some_iff.mp h
    cases he
    obtain ⟨trail, -, hbody⟩ := of_closeBracket hclose
    have hsplit := List.takeWhile_append_dropWhile (p := isDecimal) (l := body)
    rw [hbody] at hsplit
    generalize body.takeWhile isDecimal = digits at hsplit ⊢
    have hfront : '[' :: (as ++ cs) = '[' :: (as ++ (sign ++ (digits ++ (trail ++ [']'])))) ++ rest := by
      rw [hcs, ← hsplit]
      simp
    rw [hfront]
    exact .index _ (List.cons_ne_nil _ _)

theorem stands_of_readSegment (h : readSegment cs = some (segment, rest)) : Stands cs segment rest := by
  unfold readSegment at h
  split at h
  · next cs =>
    have hsplit : cs = cs.takeWhile isBlank ++ trimLeft cs := List.takeWhile_append_dropWhile.symm
    dsimp only at h
    split at h
    · next htrim =>
      rw [hsplit, htrim]
      exact .of_readQuoted (.inl rfl) List.all_takeWhile h
    · next htrim =>
      rw [hsplit, htrim]
      exact .of_readQuoted (.inr rfl) List.all_takeWhile h
    · rw [hsplit]
      exact .of_readIndex h
  · next cs =>
    obtain ⟨name, rfl, hne, hname, rfl⟩ := of_readPlain h
    exact .pointed hne hname
  · obtain ⟨name, rfl, hne, hname, rfl⟩ := of_readPlain h
    exact .plain hne hname

/-! ## The keys of a text -/

/-- The keys that a text shows. -/
def readKeys (cs : List Char) : Except PathFault (List Key) := parseFrom cs.length cs

theorem Stands.length_lt (h : Stands cs segment rest) : rest.length < cs.length := by
  have length_pos {l : List Char} (hl : l ≠ []) : 0 < l.length := List.length_pos_iff.mpr hl
  cases h with
  | index front hf =>
    have := length_pos hf
    rw [List.length_append]
    omega
  | quoted => simp only [List.length_cons, List.length_append]; omega
  | plain hne =>
    have := length_pos hne
    rw [List.length_append]
    omega
  | pointed => simp only [List.length_cons, List.length_append]; omega

theorem parseFrom_cons : parseFrom (fuel + 1) (c :: cs) = match readSegment (c :: cs) with
    | none => .ok [.name (String.ofList (c :: cs))]
    | some (segment, rest) => segment.key.bind fun k => (parseFrom fuel rest).map (k :: ·) := rfl

theorem parseFrom_fuel {fuel' : Nat} (h : cs.length ≤ fuel) (h' : cs.length ≤ fuel') :
    parseFrom fuel cs = parseFrom fuel' cs := by
  induction fuel generalizing cs fuel' with
  | zero =>
    obtain rfl := List.length_eq_zero_iff.mp (Nat.le_zero.mp h)
    cases fuel' <;> rfl
  | succ fuel ih =>
    cases cs with
    | nil => cases fuel' <;> rfl
    | cons c cs =>
      cases fuel' with
      | zero => cases h'
      | succ fuel' =>
        rw [parseFrom_cons, parseFrom_cons]
        cases hs : readSegment (c :: cs) with
        | none => rfl
        | some r =>
          have hlt := (stands_of_readSegment hs).length_lt
          rw [List.length_cons] at h h' hlt
          dsimp only
          rw [ih (by omega) (by omega : r.2.length ≤ fuel')]

theorem readKeys_of_none (hne : cs ≠ []) (h : readSegment cs = none) : readKeys cs = .ok [.name (String.ofList cs)] := by
  cases cs with
  | nil => exact absurd rfl hne
  | cons c cs => rw [readKeys, List.length_cons, parseFrom_cons, h]

theorem readKeys_of_some (h : readSegment cs = some (segment, rest)) :
    readKeys cs = segment.key.bind fun k => (readKeys rest).map (k :: ·) := by
  have hlt := (stands_of_readSegment h).length_lt
  cases cs with
  | nil => cases hlt
  | cons c cs =>
    rw [List.length_cons] at hlt
    rw [readKeys, readKeys, List.length_cons, parseFrom_cons, h]
    dsimp only
    rw [parseFrom_fuel (Nat.le_of_lt_succ hlt) (Nat.le_refl _)]

/-- The first key is that of the first segment, or all of a text that begins with none. -/
theorem of_readKeys (h : readKeys cs = .ok (k :: ks)) : (readSegment cs = none ∧ k = .name (String.ofList cs) ∧ ks = []) ∨
    ∃ segment rest, readSegment cs = some (segment, rest) ∧ segment.key = .ok k ∧ readKeys rest = .ok ks := by
  cases hs : readSegment cs with
  | none =>
    cases cs with
    | nil => cases h
    | cons c cs =>
      rw [readKeys_of_none (List.cons_ne_nil _ _) hs] at h
      cases h
      exact .inl ⟨rfl, rfl, rfl⟩
  | some r =>
    rw [readKeys_of_some hs] at h
    obtain ⟨k', hk, h⟩ := of_bind_ok h
    obtain ⟨ks', hks, he⟩ := of_map_ok h
    cases he
    exact .inr ⟨r.1, r.2, rfl, hk, hks⟩

theorem of_key_name (h : segment.key = .ok (.name s)) :
    segment = .quoted s.toList ∨ segment = .plain s.toList ∧ s.toList.all isFigure = false := by
  cases segment with
  | index digits =>
    rw [Segment.key] at h
    split at h <;> cases h
  | quoted name =>
    cases h
    exact .inl (by rw [String.toList_ofList])
  | plain name =>
    rw [Segment.key] at h
    split at h
    · split at h <;> cases h
    · next hfigures =>
      cases h
      exact .inr ⟨by rw [String.toList_ofList], by simpa using hfigures⟩

/-- What is read is a name or a numeral. -/
theorem of_key (h : segment.key = .ok k) : (∃ s, k = .name s) ∨ ∃ n, k = .index n ∧ digitCount n.natAbs ≤ 4300 := by
  cases segment with
  | index digits =>
    rw [Segment.key] at h
    split at h
    · next hn =>
      cases h
      exact .inr ⟨_, rfl, digitCount_of_readInt? hn⟩
    · cases h
  | quoted name =>
    cases h
    exact .inl ⟨_, rfl⟩
  | plain name =>
    rw [Segment.key] at h
    split at h
    · split at h
      · next hn =>
        cases h
        exact .inr ⟨_, rfl, digitCount_of_readInt? hn⟩
      · cases h
    · cases h
      exact .inl ⟨_, rfl⟩

theorem of_parseFrom (h : parseFrom fuel cs = .ok keys) (hk : k ∈ keys) :
    (∃ s, k = .name s) ∨ ∃ n, k = .index n ∧ digitCount n.natAbs ≤ 4300 := by
  induction fuel generalizing cs keys with
  | zero =>
    cases h
    cases hk
  | succ fuel ih =>
    cases cs with
    | nil =>
      cases h
      cases hk
    | cons c cs =>
      rw [parseFrom_cons] at h
      split at h
      · cases h
        exact .inl ⟨_, List.mem_singleton.mp hk⟩
      · obtain ⟨j, hj, h⟩ := of_bind_ok h
        obtain ⟨ks, hks, he⟩ := of_map_ok h
        cases he
        rcases List.mem_cons.mp hk with rfl | hk
        · exact of_key hj
        · exact ih hks hk

/-! ## Keys behind other keys -/

theorem readSegment_written (h : k.IsPlain) (hrest : ∀ c ∈ rest.head?, c = '.' ∨ c = '[') :
    ∃ segment, readSegment (k.written ++ rest) = some (segment, rest) ∧ segment.key = .ok k := by
  cases k with
  | index n => exact ⟨_, readSegment_index n rest, by rw [Segment.key, readInt?_intChars h]⟩
  | name s =>
    obtain ⟨hne, hplain, hfigures⟩ := h
    have hs : s.toList ≠ [] := fun he => hne (String.toList_eq_nil_iff.mp he)
    refine ⟨.plain s.toList, readPlain_append hs hplain hrest, ?_⟩
    rw [Segment.key, hfigures, String.ofList_toList]
    rfl
  | _ => exact False.elim h

theorem readKeys_written (h : ∀ k ∈ ks, k.IsPlain) : readKeys (ks.flatMap Key.written) = .ok ks := by
  induction ks with
  | nil => rfl
  | cons k ks ih =>
    obtain ⟨segment, hs, hk⟩ := readSegment_written (h k List.mem_cons_self) (head_written ks)
    rw [List.flatMap_cons, readKeys_of_some hs, hk, ih fun k hk => h k (List.mem_cons_of_mem _ hk)]
    rfl

/-- Behind another key, only a plain key is read as itself. -/
theorem isPlain_of_readKeys (h : readKeys (ks.flatMap Key.written) = .ok ks) : ∀ k ∈ ks, k.IsPlain := by
  induction ks with
  | nil => exact nofun
  | cons k ks ih =>
    rw [List.flatMap_cons] at h
    suffices hk : k.IsPlain ∧ readKeys (ks.flatMap Key.written) = .ok ks by
      exact List.forall_mem_cons.mpr ⟨hk.1, ih hk.2⟩
    rcases of_readKeys h with ⟨-, hk, rfl⟩ | ⟨segment, rest, hs, hk, hks⟩
    · cases k with
      | name s =>
        -- the whole of a text is longer than the name written into it
        have hlength := congrArg (·.toList.length) (Key.name.inj hk)
        simp [Key.written, Key.text] at hlength
      | _ => cases hk
    · rcases of_key hk with ⟨s, rfl⟩ | ⟨n, rfl, hn⟩
      · have hs : readPlain (s.toList ++ ks.flatMap Key.written) = some (segment, rest) := hs
        obtain ⟨name, rfl, hne, hplain, hsplit⟩ := of_readPlain hs
        obtain he | ⟨he, hfigures⟩ := of_key_name hk
        · cases he
        · cases he
          obtain rfl := List.append_cancel_left hsplit
          exact ⟨⟨fun hs => hne (by rw [hs]; rfl), hplain, hfigures⟩, hks⟩
      · rw [readSegment_index] at hs
        cases hs
        exact ⟨hn, hks⟩

/-! ## The first name

A name that is written first can contain what a segment is made of. It is still read as itself only where the keys
behind it begin, since nothing that stands inside of a bracket begins a key.
-/

/-- What has no separator in it does not reach into the keys that follow. -/
theorem append_cut (h : as ++ ks.flatMap Key.written = ys ++ zs) (hys : '.' ∉ ys ∧ '[' ∉ ys) :
    ∃ ws, as = ys ++ ws ∧ zs = ws ++ ks.flatMap Key.written := by
  rcases List.append_eq_append_iff.mp h with ⟨ws, hys', hbs⟩ | ⟨ws, has, hzs⟩
  · cases ws with
    | nil => exact ⟨[], by simpa using hys'.symm, by simpa using hbs.symm⟩
    | cons w ws =>
      have hmem : w ∈ ys := by simp [hys']
      have hw := head_written ks w (by simp [hbs])
      rcases hw with rfl | rfl
      · exact absurd hmem hys.1
      · exact absurd hmem hys.2
  · exact ⟨ws, has, hzs⟩

theorem separator_not_mem {b : List Char} (hb : b.all isBlank = true) : '.' ∉ b ∧ '[' ∉ b := by
  constructor <;> exact fun h => absurd (List.all_eq_true.mp hb _ h) (by decide)

/-- An opening bracket with a quote in it is not one of a key that is written behind another. -/
theorem append_opening {lead : List Char} (h : as ++ ks.flatMap Key.written = '[' :: (lead ++ q :: zs))
    (hlead : lead.all isBlank = true) (hq : q = '\'' ∨ q = '"') :
    ∃ ws, as = '[' :: (lead ++ q :: ws) ∧ zs = ws ++ ks.flatMap Key.written := by
  have hcut : '.' ∉ lead ++ [q] ∧ '[' ∉ lead ++ [q] := by
    obtain ⟨hpoint, hbracket⟩ := separator_not_mem hlead
    rcases hq with rfl | rfl <;> simp [hpoint, hbracket]
  cases as with
  | cons a as =>
    obtain ⟨rfl, h⟩ := List.cons.inj h
    have h : as ++ ks.flatMap Key.written = (lead ++ [q]) ++ zs := by simpa using h
    obtain ⟨ws, rfl, hzs⟩ := append_cut h hcut
    exact ⟨ws, by simp, hzs⟩
  | nil =>
    -- an index begins with a digit or its sign
    cases ks with
    | nil => cases h
    | cons k ks =>
      cases k with
      | index n =>
        obtain ⟨c, cs, hcs, hc⟩ := head_intChars n
        have hblank : isBlank c = false :=
          Numeral.IsPlain.not_blank (hc.imp id fun (h : c = '-') => by rw [h]; decide)
        rw [List.nil_append, List.flatMap_cons, Key.written, hcs] at h
        cases lead with
        | nil =>
          obtain rfl := (List.cons.inj (List.cons.inj h).2).1
          rcases hq with rfl | rfl <;> (rcases hc with hc | hc <;> cases hc)
        | cons b lead =>
          obtain rfl := (List.cons.inj (List.cons.inj h).2).1
          rw [List.all_cons, hblank] at hlead
          cases hlead
      | _ => cases h

/-- A name is not quoted inside of itself. -/
theorem not_quoted_suffix (has : as <:+ s.toList) :
    readSegment (as ++ ks.flatMap Key.written) ≠ some (.quoted s.toList, rest) := by
  intro h
  generalize hcs : as ++ ks.flatMap Key.written = cs at h
  generalize hn : s.toList = name at h
  cases stands_of_readSegment h with
  | quoted q lead trail hq hlead htrail hname =>
    obtain ⟨ws, rfl, -⟩ := append_opening hcs hlead hq
    exact hname (hn ▸ has.subset (by simp))

/-- An empty name that is read first has been quoted inside of the first name. -/
theorem of_readKeys_empty {keys : List Key}
    (h : readKeys (as ++ ks.flatMap Key.written) = .ok (.name "" :: k :: keys)) :
    ∃ ws, ws <:+ as ∧ ws ≠ as ∧ '[' ∈ as ∧ readKeys (ws ++ ks.flatMap Key.written) = .ok (k :: keys) := by
  rcases of_readKeys h with ⟨-, -, he⟩ | ⟨segment, rest, hs, hk, hks⟩
  · cases he
  · generalize hcs : as ++ ks.flatMap Key.written = cs at hs
    have hstands := stands_of_readSegment hs
    obtain rfl | ⟨rfl, -⟩ := of_key_name hk
    · generalize hn : "".toList = name at hstands
      cases hstands with
      | quoted q lead trail hq hlead htrail hname =>
        obtain rfl : [] = name := hn
        obtain ⟨vs, rfl, hvs⟩ := append_opening hcs hlead hq
        have hcut : '.' ∉ q :: (trail ++ [']']) ∧ '[' ∉ q :: (trail ++ [']']) := by
          obtain ⟨hpoint, hbracket⟩ := separator_not_mem htrail
          rcases hq with rfl | rfl <;> simp [hpoint, hbracket]
        have hrest : vs ++ ks.flatMap Key.written = q :: (trail ++ [']']) ++ rest := by simpa using hvs.symm
        obtain ⟨ws, rfl, rfl⟩ := append_cut hrest hcut
        refine ⟨ws, ⟨'[' :: (lead ++ q :: q :: (trail ++ [']'])), by simp⟩, fun he => ?_, List.mem_cons_self, hks⟩
        have hlength := congrArg List.length he
        simp only [List.length_cons, List.length_append] at hlength
        omega
    · generalize hn : "".toList = name at hstands
      cases hstands with
      | plain hne => exact absurd hn.symm hne
      | pointed hne => exact absurd hn.symm hne

/-- What stands behind a bracket of a name is not read as that name. -/
theorem readKeys_suffix_ne {m : Nat} (has : as <:+ s.toList) (hne : as ≠ s.toList) (hs : '[' ∈ s.toList) :
    readKeys (as ++ ks.flatMap Key.written) ≠ .ok (List.replicate m (.name "") ++ .name s :: ks) := by
  induction m generalizing as with
  | zero =>
    intro h
    rcases of_readKeys h with ⟨-, hk, rfl⟩ | ⟨segment, rest, hseg, hk, -⟩
    · have he : s = String.ofList as := by simpa using hk
      exact hne (by rw [he, String.toList_ofList])
    · obtain rfl | ⟨rfl, -⟩ := of_key_name hk
      · exact not_quoted_suffix has hseg
      · have hplain {name : List Char} (h : name.all isPlain = true) : '[' ∉ name :=
          fun hm => absurd (List.all_eq_true.mp h _ hm) (by decide)
        generalize s.toList = name at hs hseg
        generalize as ++ ks.flatMap Key.written = cs at hseg
        cases stands_of_readSegment hseg with
        | plain _ h => exact hplain h hs
        | pointed _ h => exact hplain h hs
  | succ m ih =>
    intro h
    have h : readKeys (as ++ ks.flatMap Key.written) =
        .ok (.name "" :: (List.replicate m (.name "") ++ .name s :: ks)) := h
    cases hm : List.replicate m (Key.name "") ++ .name s :: ks with
    | nil => simp at hm
    | cons k keys =>
      rw [hm] at h
      obtain ⟨ws, hws, hne', -, h⟩ := of_readKeys_empty h
      refine ih (hws.trans has) (fun he => hne' ?_) (hm ▸ h)
      exact hws.eq_of_length_le (he ▸ has.length_le)

/-- A name that is written first is read as itself if it is plain, or if it stands alone and is no segment. -/
theorem of_readKeys_name (h : readKeys (s.toList ++ ks.flatMap Key.written) = .ok (.name s :: ks)) (hne : s ≠ "") :
    (∀ k ∈ .name s :: ks, k.IsPlain) ∨ ks = [] ∧ readSegment s.toList = none := by
  rcases of_readKeys h with ⟨hnone, -, rfl⟩ | ⟨segment, rest, hs, hk, hks⟩
  · exact .inr ⟨rfl, by simpa using hnone⟩
  · left
    obtain rfl | ⟨rfl, hfigures⟩ := of_key_name hk
    · exact absurd hs (not_quoted_suffix List.suffix_rfl)
    · generalize hcs : s.toList ++ ks.flatMap Key.written = cs at hs
      generalize hn : s.toList = name at hs
      cases stands_of_readSegment hs with
      | plain _ hplain =>
        subst hn
        obtain rfl := List.append_cancel_left hcs
        exact List.forall_mem_cons.mpr ⟨⟨hne, hplain, hfigures⟩, isPlain_of_readKeys hks⟩
      | pointed hname hplain =>
        -- a plain name does not begin with a point
        subst hn
        cases hl : s.toList with
        | nil => exact absurd hl hname
        | cons c cs =>
          rw [hl] at hcs hplain
          obtain rfl := (List.cons.inj hcs).1
          cases hplain

/-! ## Reading back -/

theorem readKeys_format (h : ∀ k ∈ keys, k.IsPlain) : readKeys (format keys).toList = .ok keys := by
  cases keys with
  | nil => rfl
  | cons k ks =>
    cases k with
    | index n =>
      rw [format_index, ← List.flatMap_cons]
      exact readKeys_written h
    | name s =>
      obtain ⟨hs, hks⟩ := List.forall_mem_cons.mp h
      have hlist : s.toList ≠ [] := fun he => hs.1 (String.toList_eq_nil_iff.mp he)
      have hseg : readSegment (s.toList ++ ks.flatMap Key.written) =
          some (.plain s.toList, ks.flatMap Key.written) := by
        rw [← readPlain_append hlist hs.2.1 (head_written ks)]
        obtain ⟨c, cs, hcs⟩ := List.exists_cons_of_ne_nil hlist
        have hc := hs.2.1
        rw [hcs, List.all_cons, Bool.and_eq_true] at hc
        rw [hcs, List.cons_append, readSegment_plain hc.1]
      have hkey : Segment.key (.plain s.toList) = .ok (.name s) := by
        rw [Segment.key, hs.2.2, String.ofList_toList]
        rfl
      rw [format_name hs.1, readKeys_of_some hseg, hkey, readKeys_written hks]
      rfl
    | _ => exact False.elim (h _ List.mem_cons_self)

theorem leading_empty (keys : List Key) :
    ∃ m ks, keys = List.replicate m (.name "") ++ ks ∧ .name "" ∉ ks.head? := by
  induction keys with
  | nil => exact ⟨0, [], rfl, nofun⟩
  | cons k keys ih =>
    by_cases hk : k = .name ""
    · obtain ⟨m, ks, rfl, hks⟩ := ih
      exact ⟨m + 1, ks, by rw [hk]; rfl, hks⟩
    · exact ⟨0, k :: keys, rfl, fun h => hk (Option.some.inj h)⟩

/-- An index that is written behind empty names is read as itself only if there are none, and the rest is plain. -/
theorem isPlain_of_format_index {m : Nat} {n : Int}
    (h : readKeys (format (List.replicate m (.name "") ++ .index n :: ks)).toList =
      .ok (List.replicate m (.name "") ++ .index n :: ks)) :
    ∀ k ∈ List.replicate m (.name "") ++ .index n :: ks, k.IsPlain := by
  rw [format_replicate, format_index] at h
  cases m with
  | zero =>
    rw [← List.flatMap_cons] at h
    exact isPlain_of_readKeys h
  | succ m =>
    rw [readKeys_of_some (readSegment_index n _)] at h
    obtain ⟨k, hk, h⟩ := of_bind_ok h
    obtain ⟨_, -, he⟩ := of_map_ok h
    obtain rfl : .name "" = k := (List.cons.inj he).1
    rcases of_key_name hk with he | ⟨he, -⟩ <;> cases he

/-- A name that is written behind empty names is read as itself only if there are none. -/
theorem of_format_name {m : Nat} (hs : s ≠ "")
    (h : readKeys (format (List.replicate m (.name "") ++ .name s :: ks)).toList =
      .ok (List.replicate m (.name "") ++ .name s :: ks)) :
    m = 0 ∧ ((∀ k ∈ .name s :: ks, k.IsPlain) ∨ ks = [] ∧ readSegment s.toList = none) := by
  rw [format_replicate, format_name hs] at h
  cases m with
  | zero => exact ⟨rfl, of_readKeys_name h hs⟩
  | succ m =>
    have h : readKeys (s.toList ++ ks.flatMap Key.written) =
      .ok (.name "" :: (List.replicate m (.name "") ++ .name s :: ks)) := h
    cases hm : List.replicate m (Key.name "") ++ .name s :: ks with
    | nil => simp at hm
    | cons k keys =>
      rw [hm] at h
      obtain ⟨ws, hws, hne, hbracket, h⟩ := of_readKeys_empty h
      exact absurd (hm ▸ h) (readKeys_suffix_ne hws hne hbracket)

/-- Written keys are read as themselves if all are plain, or if there is one name only and it is no segment. -/
theorem parse_format_iff : parse (format keys) = .ok keys ↔
    (∀ k ∈ keys, k.IsPlain) ∨ ∃ s, keys = [.name s] ∧ s ≠ "" ∧ readSegment s.toList = none := by
  have hparse (s : String) : parse s = readKeys s.toList := by rw [parse, readKeys, String.length_toList]
  rw [hparse]
  constructor
  · intro h
    obtain ⟨m, ks, rfl, hks⟩ := leading_empty keys
    cases ks with
    | nil =>
      rw [format_replicate] at h
      cases m with
      | zero => exact .inl nofun
      | succ m => cases h
    | cons k ks =>
      rcases of_parseFrom h (List.mem_append_right _ List.mem_cons_self) with ⟨s, rfl⟩ | ⟨n, rfl, -⟩
      · have hs : s ≠ "" := fun he => hks (by rw [he]; rfl)
        obtain ⟨rfl, hall | ⟨rfl, hnone⟩⟩ := of_format_name hs h
        · exact .inl hall
        · exact .inr ⟨s, rfl, hs, hnone⟩
      · exact .inl (isPlain_of_format_index h)
  · rintro (h | ⟨s, rfl, hs, hnone⟩)
    · exact readKeys_format h
    · have hlist : s.toList ≠ [] := fun he => hs (String.toList_eq_nil_iff.mp he)
      rw [format_name hs, List.flatMap_nil, List.append_nil, readKeys_of_none hlist hnone, String.ofList_toList]

/-- The keys of a path are read back from their text if every name of the path is plain, or if the path is one name
that is no segment, and in no other case. -/
theorem parse_format_parse_iff {p : String} (h : parse p = .ok keys) : parse (format keys) = .ok keys ↔
    (∀ s, .name s ∈ keys → (Key.name s).IsPlain) ∨ ∃ s, keys = [.name s] ∧ s ≠ "" ∧ readSegment s.toList = none := by
  rw [parse_format_iff]
  refine or_congr_left ⟨fun hall s hs => hall _ hs, fun hall k hk => ?_⟩
  rcases of_parseFrom h hk with ⟨s, rfl⟩ | ⟨n, rfl, hn⟩
  · exact hall s hk
  · exact hn

/-- A quoted name with a point in it is written without its quotes. -/
theorem parse_format_parse_iff_quoted : parse "data['a.b']" = .ok [.name "data", .name "a.b"] ∧
    parse (format [.name "data", .name "a.b"]) ≠ .ok [.name "data", .name "a.b"] := by
  have h : parse "data['a.b']" = .ok [.name "data", .name "a.b"] := by decide +kernel
  refine ⟨h, fun hback => ?_⟩
  rcases (parse_format_parse_iff h).mp hback with hplain | ⟨s, hs, -⟩
  · exact absurd (hplain "a.b" (by decide)).2.1 (by decide +kernel)
  · cases hs

end Path
end FormRules
