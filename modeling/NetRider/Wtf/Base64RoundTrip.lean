import NetRider.Lib.Bytes
import NetRider.Wtf.Base64

/-!
# Base64 and back

Joining in place yields what joining from the values elsewhere would: nothing is written in front
of what is still to be read.
-/

namespace NetRider.Wtf.Base64

open Lib

/-! ## Bits -/

theorem or_toNat {a b : UInt8} (k : Nat) (high : 2 ^ k ∣ a.toNat) (low : b.toNat < 2 ^ k) :
    (a ||| b).toNat = a.toNat + b.toNat := by
  obtain ⟨q, same⟩ := high
  rw [UInt8.toNat_or, same, Nat.two_pow_add_eq_or_of_lt low]

theorem sextet0_toNat (a : UInt8) : (sextet0 a).toNat = a.toNat / 4 := by
  revert a
  exact forall_byte (by decide)

theorem sextet3_toNat (c : UInt8) : (sextet3 c).toNat = c.toNat % 64 := by
  revert c
  exact forall_byte (by decide)

theorem sextet1_toNat (a b : UInt8) :
    (sextet1 a b).toNat = a.toNat % 4 * 16 + b.toNat / 16 := by
  have high : ∀ a : UInt8, ((a <<< 4) &&& (0o77 : UInt8)).toNat = a.toNat % 4 * 16 :=
    forall_byte (by decide)
  have low : ∀ b : UInt8, ((b >>> 4) &&& (0o17 : UInt8)).toNat = b.toNat / 16 :=
    forall_byte (by decide)
  have bound := b.toNat_lt
  rw [sextet1, UInt8.or_comm, or_toNat 4 (by rw [high]; omega) (by rw [low]; omega), high, low]

theorem sextet2_toNat (b c : UInt8) :
    (sextet2 b c).toNat = b.toNat % 16 * 4 + c.toNat / 64 := by
  have high : ∀ b : UInt8, ((b <<< 2) &&& (0o77 : UInt8)).toNat = b.toNat % 16 * 4 :=
    forall_byte (by decide)
  have low : ∀ c : UInt8, ((c >>> 6) &&& (0o3 : UInt8)).toNat = c.toNat / 64 :=
    forall_byte (by decide)
  have bound := c.toNat_lt
  rw [sextet2, UInt8.or_comm, or_toNat 2 (by rw [high]; omega) (by rw [low]; omega), high, low]

theorem join0_toNat (a b : UInt8) :
    (join0 a b).toNat = a.toNat % 64 * 4 + b.toNat / 16 % 4 := by
  have high : ∀ a : UInt8, (a <<< 2).toNat = a.toNat % 64 * 4 := forall_byte (by decide)
  have low : ∀ b : UInt8, ((b >>> 4) &&& (0o3 : UInt8)).toNat = b.toNat / 16 % 4 :=
    forall_byte (by decide)
  rw [join0, or_toNat 2 (by rw [high]; omega) (by rw [low]; omega), high, low]

theorem join1_toNat (b c : UInt8) :
    (join1 b c).toNat = b.toNat % 16 * 16 + c.toNat / 4 % 16 := by
  have high : ∀ b : UInt8, (b <<< 4).toNat = b.toNat % 16 * 16 := forall_byte (by decide)
  have low : ∀ c : UInt8, ((c >>> 2) &&& (0o17 : UInt8)).toNat = c.toNat / 4 % 16 :=
    forall_byte (by decide)
  rw [join1, or_toNat 4 (by rw [high]; omega) (by rw [low]; omega), high, low]

theorem join2_toNat (c d : UInt8) :
    (join2 c d).toNat = c.toNat % 4 * 64 + d.toNat % 64 := by
  have high : ∀ c : UInt8, (c <<< 6).toNat = c.toNat % 4 * 64 := forall_byte (by decide)
  have low : ∀ d : UInt8, (d &&& (0o77 : UInt8)).toNat = d.toNat % 64 :=
    forall_byte (by decide)
  rw [join2, or_toNat 6 (by rw [high]; omega) (by rw [low]; omega), high, low]

/-- Three bytes in four sextets. -/
theorem join_sextets (a b c : UInt8) : join0 (sextet0 a) (sextet1 a b) = a ∧
    join1 (sextet1 a b) (sextet2 b c) = b ∧ join2 (sextet2 b c) (sextet3 c) = c := by
  have boundA := a.toNat_lt
  have boundB := b.toNat_lt
  have boundC := c.toNat_lt
  refine ⟨UInt8.toNat_inj.mp ?_, UInt8.toNat_inj.mp ?_, UInt8.toNat_inj.mp ?_⟩
  · rw [join0_toNat, sextet0_toNat, sextet1_toNat]
    omega
  · rw [join1_toNat, sextet1_toNat, sextet2_toNat]
    omega
  · rw [join2_toNat, sextet2_toNat, sextet3_toNat]
    omega

/-! ## Groups -/

/-- The six bits behind each character. -/
def sextets : List UInt8 → List UInt8
  | a :: b :: c :: data => sextet0 a :: sextet1 a b :: sextet2 b c :: sextet3 c :: sextets data
  | [a, b] => [sextet0 a, sextet1 a b, sextet2 b 0]
  | [a] => [sextet0 a, sextet1 a 0]
  | [] => []

/-- The bytes in groups of sextets. -/
def joined : List UInt8 → List UInt8
  | a :: b :: c :: d :: rest => join0 a b :: join1 b c :: join2 c d :: joined rest
  | [a, b, c] => [join0 a b, join1 b c]
  | [a, b] => [join0 a b]
  | _ => []

theorem joined_sextets (data : List UInt8) : joined (sextets data) = data := by
  fun_induction sextets data with
  | case1 a b c data ih =>
    obtain ⟨first, second, third⟩ := join_sextets a b c
    rw [joined, first, second, third, ih]
  | case2 a b =>
    obtain ⟨first, second, -⟩ := join_sextets a b 0
    rw [joined, first, second]
  | case3 a =>
    obtain ⟨first, -⟩ := join_sextets a 0 0
    rw [joined, first]
  | case4 => rfl

theorem sextets_length (data : List UInt8) :
    (sextets data).length = (4 * data.length + 2) / 3 := by
  fun_induction sextets data with
  | case1 a b c data ih =>
    simp only [List.length_cons, ih]
    omega
  | case2 | case3 | case4 => simp

theorem joined_length (values : List UInt8) (whole : values.length % 4 ≠ 1) :
    (joined values).length = values.length - (values.length + 3) / 4 := by
  fun_induction joined values with
  | case1 a b c d rest ih =>
    simp only [List.length_cons] at whole ⊢
    rw [ih (by omega)]
    omega
  | case2 | case3 => simp
  | case4 values four three two =>
    rcases values with _ | ⟨a, _ | ⟨b, _ | ⟨c, _ | ⟨d, rest⟩⟩⟩⟩
    · rfl
    · exact absurd rfl whole
    · exact absurd rfl (two a b)
    · exact absurd rfl (three a b c)
    · exact absurd rfl (four a b c d rest)

theorem sextets_lt (data : List UInt8) : ∀ sextet ∈ sextets data, sextet.toNat < 64 := by
  have bound (a : UInt8) : a.toNat < 256 := a.toNat_lt
  have first (a : UInt8) : (sextet0 a).toNat < 64 := by
    rw [sextet0_toNat]
    have := bound a
    omega
  have second (a b : UInt8) : (sextet1 a b).toNat < 64 := by
    rw [sextet1_toNat]
    have := bound b
    omega
  have third (b c : UInt8) : (sextet2 b c).toNat < 64 := by
    rw [sextet2_toNat]
    have := bound c
    omega
  have fourth (c : UInt8) : (sextet3 c).toNat < 64 := by
    rw [sextet3_toNat]
    omega
  fun_induction sextets data with
  | case1 a b c data ih =>
    simp only [List.forall_mem_cons]
    exact ⟨first a, second a b, third b c, fourth c, ih⟩
  | case2 a b => simp [first, second, third]
  | case3 a => simp [first, second]
  | case4 => simp

/-! ## Joining in place -/

variable {out more : List UInt8} {join : UInt8 → UInt8 → UInt8} {a b : UInt8}

theorem read_eq {i : Nat} (back : out.drop i = a :: more) : read out i = .ok a := by
  have found : out[i]? = some a := by
    rw [← List.head?_drop, back, List.head?_cons]
  rw [read, found]

/-- A byte is written in front of what is still to be read. -/
theorem joinAt_eq {didx i : Nat} (back : out.drop i = a :: b :: more) (front : didx ≤ i) :
    ∃ out', joinAt join out didx i = .ok out' ∧
      out'.take (didx + 1) = out.take didx ++ [join a b] ∧ out'.drop (i + 1) = b :: more := by
  have next : out.drop (i + 1) = b :: more := by
    rw [← List.tail_drop, back, List.tail_cons]
  have inside : i < out.length := by
    by_contra outside
    rw [List.drop_eq_nil_of_le (not_lt.mp outside)] at back
    exact List.cons_ne_nil _ _ back.symm
  refine ⟨out.set didx (join a b), ?_, ?_, ?_⟩
  · rw [joinAt, read_eq back, read_eq next]
    exact if_pos (front.trans_lt inside)
  · have size : didx < (out.set didx (join a b)).length := by
      rw [List.length_set]
      omega
    rw [List.take_succ_eq_append_getElem size, List.getElem_set_self, List.take_set_of_le le_rfl]
  · rw [List.drop_set_of_lt (by omega), next]

theorem joinGroup_eq {c d : UInt8} {sidx didx : Nat}
    (back : out.drop sidx = a :: b :: c :: d :: more) (front : didx ≤ sidx) :
    ∃ out', joinGroup out sidx didx = .ok out' ∧
      out'.take (didx + 3) = out.take didx ++ [join0 a b, join1 b c, join2 c d] ∧
      out'.drop (sidx + 4) = more := by
  obtain ⟨out1, made1, taken1, back1⟩ := @joinAt_eq _ _ join0 _ _ _ _ back front
  obtain ⟨out2, made2, taken2, back2⟩ :=
    @joinAt_eq _ _ join1 _ _ (didx + 1) _ back1 (by omega)
  obtain ⟨out3, made3, taken3, back3⟩ :=
    @joinAt_eq _ _ join2 _ _ (didx + 2) _ back2 (by omega)
  refine ⟨out3, ?_, ?_, ?_⟩
  · simp only [joinGroup, bind, Except.bind, made1, made2]
    exact made3
  · rw [taken3, taken2, taken1]
    simp
  · rw [← List.tail_drop, back3, List.tail_cons]

theorem joinRest_eq {values garbage : List UInt8} {outLength sidx didx : Nat}
    (few : values.length < 4) (whole : values.length % 4 ≠ 1)
    (back : out.drop sidx = values ++ garbage) (front : didx ≤ sidx)
    (length : outLength = didx + (joined values).length) :
    joinRest outLength out sidx didx = .ok (out.take didx ++ joined values) := by
  have shrunk (made : List UInt8) :
      (if outLength < made.length then made.take outLength else made) = made.take outLength := by
    split_ifs with longer
    · rfl
    · rw [List.take_of_length_le (not_lt.mp longer)]
  unfold joinRest joinWithin
  rcases values with _ | ⟨a, _ | ⟨b, _ | ⟨c, _ | ⟨d, rest⟩⟩⟩⟩
  · have none : joined [] = [] := by simp [joined]
    rw [none, List.length_nil, Nat.add_zero] at length
    subst length
    rw [if_neg (lt_irrefl _), none, List.append_nil]
    simp only [bind, Except.bind, pure, Except.pure, shrunk]
    rw [if_neg (by omega)]
  · exact absurd rfl whole
  · obtain ⟨out1, made1, taken1, back1⟩ := @joinAt_eq _ _ join0 _ _ _ _ back front
    have pair : joined [a, b] = [join0 a b] := by simp [joined]
    rw [pair, List.length_singleton] at length
    rw [if_pos (by omega), made1, pair, ← taken1, ← length]
    simp only [bind, Except.bind, pure, Except.pure, shrunk]
    rw [if_neg (by omega)]
  · obtain ⟨out1, made1, taken1, back1⟩ := @joinAt_eq _ _ join0 _ _ _ _ back front
    obtain ⟨out2, made2, taken2, back2⟩ :=
      @joinAt_eq _ _ join1 _ _ (didx + 1) _ back1 (by omega)
    have triple : joined [a, b, c] = [join0 a b, join1 b c] := by simp [joined]
    have size : outLength = didx + 1 + 1 := by rw [length, triple]; rfl
    have taken : out.take didx ++ [join0 a b, join1 b c] = out2.take outLength := by
      rw [size, taken2, taken1, List.append_assoc]
      rfl
    rw [if_pos (by omega), made1, triple, taken]
    simp only [bind, Except.bind, pure, Except.pure, shrunk]
    rw [if_pos (by omega), made2]
  · simp only [List.length_cons] at few
    omega

theorem joinLoop_last {values garbage : List UInt8} {outLength sidx didx : Nat} (fuel : Nat)
    (few : values.length < 4) (whole : values.length % 4 ≠ 1)
    (back : out.drop sidx = values ++ garbage) (front : didx ≤ sidx)
    (length : outLength = didx + (joined values).length) :
    ∃ out' sidx' didx', joinLoop outLength fuel out sidx didx = .ok (out', sidx', didx') ∧
      joinRest outLength out' sidx' didx' = .ok (out.take didx ++ joined values) := by
  have short := joined_length values whole
  refine ⟨out, sidx, didx, ?_, joinRest_eq few whole back front length⟩
  cases fuel with
  | zero => rfl
  | succ fuel => rw [joinLoop, if_neg (by omega)]

/-- The loop and what follows it. -/
theorem joinLoop_eq {values garbage : List UInt8} {outLength fuel sidx didx : Nat}
    (whole : values.length % 4 ≠ 1) (back : out.drop sidx = values ++ garbage)
    (front : didx ≤ sidx) (length : outLength = didx + (joined values).length)
    (enough : (joined values).length ≤ fuel) :
    ∃ out' sidx' didx', joinLoop outLength fuel out sidx didx = .ok (out', sidx', didx') ∧
      joinRest outLength out' sidx' didx' = .ok (out.take didx ++ joined values) := by
  induction fuel generalizing values out sidx didx with
  | zero =>
    have short := joined_length values whole
    exact joinLoop_last 0 (by omega) whole back front length
  | succ fuel ih =>
    rcases values with _ | ⟨a, _ | ⟨b, _ | ⟨c, _ | ⟨d, rest⟩⟩⟩⟩
    · exact joinLoop_last _ (by simp) whole back front length
    · exact absurd rfl whole
    · exact joinLoop_last _ (by simp) whole back front length
    · exact joinLoop_last _ (by simp) whole back front length
    · obtain ⟨out1, made, taken, back1⟩ := joinGroup_eq back front
      rw [joined] at length enough ⊢
      simp only [List.length_cons] at length enough whole
      obtain ⟨out', sidx', didx', loop, ended⟩ :=
        @ih out1 rest (sidx + 4) (didx + 3) (by omega) back1 (by omega) (by omega) (by omega)
      refine ⟨out', sidx', didx', ?_, ?_⟩
      · rw [joinLoop, if_pos (by omega), made]
        exact loop
      · rw [ended, taken, List.append_assoc]
        rfl

/-- Joining from the front yields the bytes of the values. -/
theorem joinAll_eq {values : List UInt8} (whole : values.length % 4 ≠ 1)
    (garbage : List UInt8) :
    joinAll (joined values).length (values ++ garbage) = .ok (joined values) := by
  have back : (values ++ garbage).drop 0 = values ++ garbage := rfl
  unfold joinAll
  by_cases many : (joined values).length > 1
  · obtain ⟨out', sidx', didx', loop, ended⟩ :=
      joinLoop_eq whole back le_rfl (Nat.zero_add _).symm le_rfl
    rw [if_pos many, loop]
    exact ended
  · have short := joined_length values whole
    rw [if_neg many]
    exact joinRest_eq (by omega) whole back le_rfl (Nat.zero_add _).symm

theorem joinedLength_eq {values : List UInt8} (whole : values.length % 4 ≠ 1)
    (fits : values.length + 3 < 2 ^ 32) : joinedLength values.length = (joined values).length := by
  rw [joinedLength, Nat.mod_eq_of_lt fits, joined_length values whole]

/-! ## Line feeds -/

/-- How many line feeds are written in front of the first groups, at most. -/
def breaks (groups : Nat) : Nat :=
  if groups ≤ 536870912 then (groups - 1) / 19
  else 28256363 + (groups - 536870909) / 19

theorem wrapInt_low {k : Nat} (low : k < 536870912) : wrapInt (4 * k) = 4 * k := by
  have numbers : (2 : Int) ^ 31 = 2147483648 ∧ (2 : Int) ^ 32 = 4294967296 := by norm_num
  rw [wrapInt, numbers.1, numbers.2]
  omega

theorem wrapInt_high {k : Nat} (high : 536870912 ≤ k) (few : k ≤ 1073741824) :
    wrapInt (4 * k) = 4 * k - 4294967296 := by
  have numbers : (2 : Int) ^ 31 = 2147483648 ∧ (2 : Int) ^ 32 = 4294967296 := by norm_num
  rw [wrapInt, numbers.1, numbers.2]
  omega

theorem breaks_low {k : Nat} (low : k ≤ 536870912) : breaks k = (k - 1) / 19 :=
  if_pos low

theorem breaks_high {k : Nat} (high : 536870912 ≤ k) :
    breaks k = 28256363 + (k - 536870909) / 19 := by
  rcases high.lt_or_eq with more | rfl
  · exact if_neg (not_le.mpr more)
  · rfl

theorem breaks_mono (k : Nat) : breaks k ≤ breaks (k + 1) := by
  rcases lt_or_ge k 536870912 with low | high
  · rw [breaks_low low.le, breaks_low low]
    omega
  · rw [breaks_high high, breaks_high (high.trans (Nat.le_succ k))]
    omega

/-- Behind 2 ^ 29 groups the count is negative and the line feeds come later. -/
theorem breaks_step {k : Nat} (few : k ≤ 1073741824) (some : wrapInt (4 * k) ≠ 0)
    (whole : wrapInt (4 * k) % 76 = 0) : breaks k + 1 ≤ breaks (k + 1) := by
  rcases lt_or_ge k 536870912 with low | high
  · rw [wrapInt_low low] at some whole
    rw [breaks_low low.le, breaks_low low]
    omega
  · rw [wrapInt_high high few] at whole
    rw [breaks_high high, breaks_high (high.trans (Nat.le_succ k))]
    omega

/-- There is room for all of them. -/
theorem breaks_le (groups : Nat) : breaks groups ≤ (4 * groups - 1) / 76 := by
  rcases le_total groups 536870912 with low | high
  · rw [breaks_low low]
    omega
  · rw [breaks_high high]
    omega

theorem wrapInt_step (k : Nat) :
    wrapInt (wrapInt (4 * k) + 4) = wrapInt (4 * (k + 1 : Nat)) := by
  have numbers : (2 : Int) ^ 31 = 2147483648 ∧ (2 : Int) ^ 32 = 4294967296 := by norm_num
  unfold wrapInt
  rw [numbers.1, numbers.2]
  omega

theorem lineFeed_length (insert : Bool) : (lineFeed insert).length = if insert then 1 else 0 := by
  cases insert <;> rfl

theorem encodeGroups_length (encodeMap : List UInt8) (count : Int) (data : List UInt8) :
    (encodeGroups encodeMap false count data).length = (sextets data).length := by
  fun_induction encodeGroups encodeMap false count data with
  | case1 count a b c data ih =>
    rw [sextets, List.length_append, List.length_append, ih]
    simp [lineFeed]
    omega
  | case2 | case3 | case4 => simp [lineFeed, sextets]

theorem encodeGroups_length_le (encodeMap : List UInt8) {k : Nat} {data : List UInt8}
    (few : k + (data.length + 2) / 3 ≤ 1073741824) :
    (encodeGroups encodeMap true (wrapInt (4 * k)) data).length + breaks k ≤
      (sextets data).length + breaks (k + (data.length + 2) / 3) := by
  have grows := breaks_mono k
  fun_induction sextets data generalizing k with
  | case1 a b c data ih =>
    have groups : k + ((a :: b :: c :: data).length + 2) / 3 = k + 1 + (data.length + 2) / 3 := by
      simp only [List.length_cons]
      omega
    rw [groups] at few ⊢
    have rest := @ih (k + 1) few (breaks_mono (k + 1))
    have step := @breaks_step k (by omega)
    rw [encodeGroups, if_pos rfl, wrapInt_step, List.length_append, List.length_append,
      lineFeed_length]
    simp only [List.length_cons, List.length_nil, Bool.true_and, Bool.and_eq_true,
      decide_eq_true_eq]
    clear ih few groups
    generalize wrapInt (4 * k) = count at *
    split_ifs with break_
    · have := step break_.1 break_.2
      omega
    · omega
  | case2 a b =>
    have step := @breaks_step k (by omega)
    have one : ([a, b].length + 2) / 3 = 1 := by simp
    rw [one, encodeGroups, List.length_append, lineFeed_length]
    simp only [List.length_cons, List.length_nil, Bool.true_and, Bool.and_eq_true,
      decide_eq_true_eq]
    generalize wrapInt (4 * k) = count at *
    split_ifs with break_
    · have := step break_.1.ne' break_.2
      omega
    · omega
  | case3 a =>
    have step := @breaks_step k (by omega)
    have one : ([a].length + 2) / 3 = 1 := by simp
    rw [one, encodeGroups, List.length_append, lineFeed_length]
    simp only [List.length_cons, List.length_nil, Bool.true_and, Bool.and_eq_true,
      decide_eq_true_eq]
    generalize wrapInt (4 * k) = count at *
    split_ifs with break_
    · have := step break_.1.ne' break_.2
      omega
    · omega
  | case4 => simp [encodeGroups]

/-! ## Reading what has been written -/

/-- The maps fit together, and neither the equals sign nor the line feed is in them. -/
structure Inverse (encodeMap decodeMap : List UInt8) : Prop where
  ascii : ∀ value : UInt8, value.toNat < 64 → (encode encodeMap value).toNat < 128
  decodes : ∀ value : UInt8, value.toNat < 64 →
    decodeMap.getD (encode encodeMap value).toNat nonAlphabet = value
  padding : ∀ value : UInt8, value.toNat < 64 → (encode encodeMap value).toNat ≠ 0x3D
  blank : decodeMap.getD 0x0A nonAlphabet = nonAlphabet

theorem forall_value {P : UInt8 → Prop} (all : ∀ n : Fin 64, P (UInt8.ofNat n)) (value : UInt8)
    (small : value.toNat < 64) : P value := by
  have here := all ⟨value.toNat, small⟩
  rwa [UInt8.ofNat_toNat] at here

theorem inverse_base64 : Inverse base64EncMap base64DecMap where
  ascii := forall_value (by decide)
  decodes := forall_value (by decide)
  padding := forall_value (by decide)
  blank := by decide

theorem inverse_base64URL : Inverse base64URLEncMap base64URLDecMap where
  ascii := forall_value (by decide)
  decodes := forall_value (by decide)
  padding := forall_value (by decide)
  blank := by decide

variable {icu : Icu} {policy : Base64DecodePolicy} {encodeMap decodeMap : List UInt8}
  {decoded data values : List UInt8} {length : Nat} {rest : List Nat}

theorem scan_value (inverse : Inverse encodeMap decodeMap) {value : UInt8}
    (small : value.toNat < 64) :
    scan icu policy decodeMap length 0 decoded ((encode encodeMap value).toNat :: rest) =
      scan icu policy decodeMap length 0 (decoded ++ [value]) rest := by
  have other : value ≠ nonAlphabet := by
    rintro rfl
    exact absurd small (by decide)
  rw [scan, if_neg (inverse.padding value small)]
  simp only [if_pos (inverse.ascii value small), inverse.decodes value small, ne_eq, other,
    not_false_eq_true, if_true, not_true_eq_false, if_false]

theorem scan_values (inverse : Inverse encodeMap decodeMap)
    (small : ∀ value ∈ values, value.toNat < 64) :
    scan icu policy decodeMap length 0 decoded
        ((values.map (encode encodeMap)).map UInt8.toNat ++ rest) =
      scan icu policy decodeMap length 0 (decoded ++ values) rest := by
  induction values generalizing decoded with
  | nil => simp
  | cons value values ih =>
    obtain ⟨head, others⟩ := List.forall_mem_cons.mp small
    rw [List.map_cons, List.map_cons, List.cons_append, scan_value inverse head, ih others,
      List.append_assoc, List.singleton_append]

theorem scan_lineFeed (inverse : Inverse encodeMap decodeMap) (insert : Bool)
    (allowed : insert = true → policy = .ignoreWhitespace) :
    scan icu policy decodeMap length 0 decoded ((lineFeed insert).map UInt8.toNat ++ rest) =
      scan icu policy decodeMap length 0 decoded rest := by
  cases insert with
  | false => rfl
  | true =>
    obtain rfl := allowed rfl
    have space : isSpaceOrNewline icu (UInt16.ofNat 0x0A) = true := rfl
    have code : (lineFeed true).map UInt8.toNat ++ rest = 0x0A :: rest := rfl
    have equals : ¬ (0x0A : Nat) = 0x3D := by decide
    have small : (0x0A : Nat) < 128 := by decide
    rw [code, scan, if_neg equals]
    simp only [if_pos small, inverse.blank, space, ne_eq, not_true_eq_false, if_false, reduceCtorEq,
      and_false, or_self]

/-- Line feeds are ignored, where there are any. -/
theorem scan_encodeGroups (inverse : Inverse encodeMap decodeMap) {insertLFs : Bool}
    (allowed : insertLFs = true → policy = .ignoreWhitespace) (count : Int) :
    scan icu policy decodeMap length 0 decoded
        ((encodeGroups encodeMap insertLFs count data).map UInt8.toNat ++ rest) =
      scan icu policy decodeMap length 0 (decoded ++ sextets data) rest := by
  have small := sextets_lt data
  have breaks_ (p : Bool) : (insertLFs && p) = true → policy = .ignoreWhitespace := fun both =>
    allowed (Bool.and_eq_true_iff.mp both).1
  fun_induction sextets data generalizing count decoded with
  | case1 a b c data ih =>
    have four : ∀ value ∈ [sextet0 a, sextet1 a b, sextet2 b c, sextet3 c], value.toNat < 64 :=
      fun value member => small value (by simp at member ⊢; tauto)
    rw [encodeGroups, List.append_assoc, List.map_append, List.map_append, List.append_assoc,
      Bool.and_assoc, scan_lineFeed inverse _ (breaks_ _), List.append_assoc]
    have scanned := @scan_values icu policy encodeMap decodeMap decoded _ length
      ((encodeGroups encodeMap insertLFs (if insertLFs then wrapInt (count + 4) else count)
        data).map UInt8.toNat ++ rest) inverse four
    refine scanned.trans ?_
    rw [ih _ fun value member => small value (by simp [member]), List.append_assoc]
    rfl
  | case2 a b =>
    have last : (b <<< 2) &&& (0o77 : UInt8) = sextet2 b 0 := by simp [sextet2]
    rw [encodeGroups, List.map_append, List.append_assoc, Bool.and_assoc,
      scan_lineFeed inverse _ (breaks_ _), last]
    exact scan_values inverse small
  | case3 a =>
    have last : (a <<< 4) &&& (0o77 : UInt8) = sextet1 a 0 := by simp [sextet1]
    rw [encodeGroups, List.map_append, List.append_assoc, Bool.and_assoc,
      scan_lineFeed inverse _ (breaks_ _), last]
    exact scan_values inverse small
  | case4 =>
    rw [encodeGroups, List.append_nil]
    rfl

theorem scan_padding (other : policy ≠ .failOnInvalidCharacterOrExcessPadding)
    (equalsSignCount k : Nat) :
    scan icu policy decodeMap length equalsSignCount decoded
        ((List.replicate k (0x3D : UInt8)).map UInt8.toNat) =
      some (equalsSignCount + k, decoded) := by
  induction k generalizing equalsSignCount with
  | zero => rfl
  | succ k ih =>
    have equals : (0x3D : UInt8).toNat = 0x3D := rfl
    rw [List.replicate_succ, List.map_cons, scan, if_pos equals, if_neg fun both => other both.1,
      ih, Nat.add_assoc, Nat.add_comm 1 k]

/-! ## Round trip -/

theorem encodeGroups_ascii (inverse : Inverse encodeMap decodeMap) (insertLFs : Bool)
    (count : Int) : ∀ ch ∈ encodeGroups encodeMap insertLFs count data, ch.toNat < 128 := by
  have small := sextets_lt data
  have feed (insert : Bool) : ∀ ch ∈ lineFeed insert, ch.toNat < 128 := by
    cases insert <;> simp [lineFeed]
  fun_induction sextets data generalizing count with
  | case1 a b c data ih =>
    simp only [List.forall_mem_cons] at small
    obtain ⟨first, second, third, fourth, others⟩ := small
    rw [encodeGroups]
    simp only [List.forall_mem_append, List.forall_mem_cons, List.not_mem_nil, false_implies,
      implies_true, and_true]
    exact ⟨⟨feed _, inverse.ascii _ first, inverse.ascii _ second, inverse.ascii _ third,
      inverse.ascii _ fourth⟩, ih _ others⟩
  | case2 a b =>
    have last : (b <<< 2) &&& (0o77 : UInt8) = sextet2 b 0 := by simp [sextet2]
    simp only [List.forall_mem_cons] at small
    obtain ⟨first, second, third, -⟩ := small
    rw [encodeGroups, last]
    simp only [List.forall_mem_append, List.forall_mem_cons, List.not_mem_nil, false_implies,
      implies_true, and_true]
    exact ⟨feed _, inverse.ascii _ first, inverse.ascii _ second, inverse.ascii _ third⟩
  | case3 a =>
    have last : (a <<< 4) &&& (0o77 : UInt8) = sextet1 a 0 := by simp [sextet1]
    simp only [List.forall_mem_cons] at small
    obtain ⟨first, second, -⟩ := small
    rw [encodeGroups, last]
    simp only [List.forall_mem_append, List.forall_mem_cons, List.not_mem_nil, false_implies,
      implies_true, and_true]
    exact ⟨feed _, inverse.ascii _ first, inverse.ascii _ second⟩
  | case4 =>
    rw [encodeGroups]
    simp

/-- Nothing is written behind the end, and the rest is padding. -/
theorem base64EncodeInternal_eq (small : data.length ≤ maxInputBufferSize)
    (encode : Base64EncodePolicy) : ∃ insertLFs padding,
      base64EncodeInternal data encode encodeMap =
        some (encodeGroups encodeMap insertLFs 0 data ++ List.replicate padding 0x3D) ∧
      (insertLFs = true → encode = .insertLFs) ∧
      (data = [] ∨ encode = .urlPolicy → padding = 0) := by
  have most : maxInputBufferSize = 3179391370 := by decide
  by_cases some_ : data = []
  · subst some_
    exact ⟨false, 0, rfl, fun set => Bool.noConfusion set, fun _ => rfl⟩
  · have positive : 0 < data.length := List.length_pos_of_ne_nil some_
    unfold base64EncodeInternal
    rw [if_neg positive.ne', if_neg (not_lt.mpr small)]
    dsimp only
    generalize feeds : (decide (encode = .insertLFs) &&
      decide ((data.length + 2) / 3 * 4 > 76)) = insertLFs
    have room : (encodeGroups encodeMap insertLFs 0 data).length ≤
        if insertLFs = true then
          (data.length + 2) / 3 * 4 + ((data.length + 2) / 3 * 4 - 1) / 76
        else (data.length + 2) / 3 * 4 := by
      cases insertLFs with
      | false =>
        have size := encodeGroups_length encodeMap 0 data
        rw [sextets_length] at size
        rw [if_neg Bool.false_ne_true]
        omega
      | true =>
        have size := @encodeGroups_length_le encodeMap 0 data (by omega)
        have fits := breaks_le ((data.length + 2) / 3)
        have start : wrapInt (4 * (0 : Nat)) = 0 := by decide
        have none : breaks 0 = 0 := rfl
        rw [sextets_length, start, Nat.zero_add, none] at size
        rw [Nat.mul_comm 4] at fits
        rw [if_pos rfl]
        omega
    have allowed : insertLFs = true → encode = .insertLFs := fun set =>
      of_decide_eq_true (Bool.and_eq_true_iff.mp (feeds.trans set)).1
    rw [if_neg (not_lt.mpr room)]
    by_cases url : encode = .urlPolicy
    · refine ⟨insertLFs, 0, ?_, allowed, fun _ => rfl⟩
      rw [if_pos url, List.replicate_zero, List.append_nil]
    · refine ⟨insertLFs, _, if_neg url, allowed, fun either => ?_⟩
      exact absurd either (not_or.mpr ⟨some_, url⟩)

/-- The lengths of the output fit `unsigned`. -/
theorem base64EncodeInternal_length (small : data.length ≤ maxInputBufferSize)
    {encode : Base64EncodePolicy} {text : List UInt8}
    (written : base64EncodeInternal data encode encodeMap = some text) :
    text.length < 2 ^ 32 := by
  have most : maxInputBufferSize = 3179391370 := by decide
  unfold base64EncodeInternal at written
  dsimp only at written
  generalize (decide (encode = .insertLFs) &&
    decide ((data.length + 2) / 3 * 4 > 76)) = insertLFs at written
  generalize encodeGroups encodeMap insertLFs 0 data = out at written
  have padded (outLength : Nat) :
      (out ++ List.replicate (outLength - out.length) 0x3D).length = max outLength out.length := by
    rw [List.length_append, List.length_replicate]
    omega
  split_ifs at written with empty large feeds behind url behind url
  all_goals obtain rfl := Option.some.inj written
  · exact Nat.two_pow_pos 32
  · exact Nat.two_pow_pos 32
  · omega
  · rw [padded]
    omega
  · omega
  · rw [padded]
    omega

/-- What the encoder has written is read, if its line feeds are ignored. -/
theorem base64DecodeInternal_encoded (inverse : Inverse encodeMap decodeMap)
    (small : data.length ≤ maxInputBufferSize) {insertLFs : Bool} {padding : Nat}
    (lenient : policy ≠ .failOnInvalidCharacterOrExcessPadding)
    (allowed : insertLFs = true → policy = .ignoreWhitespace) (empty : data = [] → padding = 0) :
    base64DecodeInternal icu policy decodeMap
      ((encodeGroups encodeMap insertLFs 0 data ++ List.replicate padding 0x3D).map
        UInt8.toNat) = .ok data := by
  have most : maxInputBufferSize = 3179391370 := by decide
  by_cases some_ : data = []
  · subst some_
    rw [empty rfl]
    rfl
  · have positive : 0 < data.length := List.length_pos_of_ne_nil some_
    have size := sextets_length data
    have whole : (sextets data).length % 4 ≠ 1 := by omega
    have joinedSize := joinedLength_eq whole (by omega)
    rw [joined_sextets] at joinedSize
    have joinedBack := joinAll_eq whole
      (List.replicate (((encodeGroups encodeMap insertLFs 0 data ++
        List.replicate padding 0x3D).map UInt8.toNat).length - (sextets data).length) 0)
    rw [joined_sextets] at joinedBack
    have scanned (length : Nat) : scan icu policy decodeMap length 0 []
        ((encodeGroups encodeMap insertLFs 0 data ++ List.replicate padding 0x3D).map
          UInt8.toNat) = some (padding, sextets data) := by
      rw [List.map_append, scan_encodeGroups inverse allowed, List.nil_append,
        scan_padding lenient, Nat.zero_add]
    generalize (encodeGroups encodeMap insertLFs 0 data ++
      List.replicate padding 0x3D).map UInt8.toNat = codes at *
    have written : codes.length ≠ 0 := by
      intro none
      have stopped := scanned 0
      rw [List.eq_nil_of_length_eq_zero none, scan] at stopped
      have nothing := (Prod.mk.inj (Option.some.inj stopped)).2
      rw [← nothing, List.length_nil] at size
      omega
    rw [base64DecodeInternal, if_neg written, scanned]
    dsimp only
    rw [if_neg (by omega), if_neg whole, joinedSize, if_neg positive.ne', joinedBack]

end NetRider.Wtf.Base64
