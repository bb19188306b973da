/-
  HotPath.Proofs.Json.Lexeme

  Numbers and strings, written and read back. The lexeme of an integer is a number
  of the grammar, denotes that integer if a word can hold it (`Number.int?_ofInt`),
  and is finite then. Escaped text denotes the text that was escaped
  (`Quoted.decode?_encode`), and holds nothing that would end a string before its
  closing quote.
-/
import HotPath.Json.Decode

namespace HotPath.Json

-- ============================================================================
-- Digits
-- ============================================================================

namespace Number

theorem natOf_toDigits (n : Nat) : natOf (Nat.toDigits 10 n) = n := by
  have h : natOf (Nat.toDigits 10 n) = Nat.ofDigitChars 10 (Nat.toDigits 10 n) 0 := by
    rw [Nat.ofDigitChars_eq_foldl]
    rfl
  rw [h, Nat.ofDigitChars_ten_toDigits]

theorem isDigit_toDigits (n : Nat) : ∀ c ∈ Nat.toDigits 10 n, c.isDigit = true :=
  fun _ hc => Nat.isDigit_of_mem_toDigits (by decide) (by decide) hc

theorem isDigits_toDigits (n : Nat) : isDigits (Nat.toDigits 10 n) = true := by
  have hne : (Nat.toDigits 10 n).isEmpty = false := by
    rw [List.isEmpty_eq_false_iff]
    exact Nat.toDigits_ne_nil
  have hall : (Nat.toDigits 10 n).all Char.isDigit = true :=
    List.all_eq_true.mpr (isDigit_toDigits n)
  simp [isDigits, hne, hall]

/-- A number does not start with a zero, unless it is zero. -/
theorem eq_nil_of_toDigits {n : Nat} {cs : List Char} (h : Nat.toDigits 10 n = '0' :: cs) :
    cs = [] := by
  induction n using Nat.strongRecOn generalizing cs with
  | ind n ih =>
    by_cases hn : n < 10
    · rw [Nat.toDigits_of_lt_base hn] at h
      exact (List.cons.inj h).2.symm
    · have hle : 10 ≤ n := by omega
      rw [Nat.toDigits_of_base_le (by decide) hle] at h
      cases hd : Nat.toDigits 10 (n / 10) with
      | nil => exact absurd hd Nat.toDigits_ne_nil
      | cons c ds =>
        rw [hd, List.cons_append] at h
        obtain ⟨rfl, -⟩ := List.cons.inj h
        -- all but the last digit would be a single zero, and the number below ten
        have hds : ds = [] := ih (n / 10) (by omega) hd
        have hzero : n / 10 = 0 := by
          rw [← natOf_toDigits (n / 10), hd, hds]
          rfl
        omega

theorem dropWhile_isDigit {cs : List Char} (h : ∀ c ∈ cs, c.isDigit = true) :
    cs.dropWhile Char.isDigit = [] := by
  simpa using @List.dropWhile_append_of_pos _ _ cs [] h

theorem takeWhile_isDigit {cs : List Char} (h : ∀ c ∈ cs, c.isDigit = true) :
    cs.takeWhile Char.isDigit = cs := by
  simpa using @List.takeWhile_append_of_pos _ _ cs [] h

theorem isUnsigned_toDigits (n : Nat) : isUnsigned (Nat.toDigits 10 n) = true := by
  have hall := isDigit_toDigits n
  unfold isUnsigned
  split
  next h => exact absurd h Nat.toDigits_ne_nil
  next cs h =>
    rw [eq_nil_of_toDigits h]
    rfl
  next c cs _ h =>
    rw [h] at hall
    have htail : cs.dropWhile Char.isDigit = [] :=
      dropWhile_isDigit (fun d hd => hall d (List.mem_cons_of_mem _ hd))
    rw [htail, hall c List.mem_cons_self]
    rfl

-- ============================================================================
-- Integers
-- ============================================================================

theorem ofInt_natCast (n : Nat) : ofInt n = ofNat n := rfl

theorem toList_ofInt (n : Int) :
    (ofInt n).toList =
      if 0 ≤ n then Nat.toDigits 10 n.toNat else '-' :: Nat.toDigits 10 (-n).toNat := by
  show n.repr.toList = _
  rw [Int.repr_eq_if]
  split
  · rw [Nat.repr_eq_ofList_toDigits, String.toList_ofList]
  · rw [String.toList_append, Nat.repr_eq_ofList_toDigits, String.toList_ofList,
      String.toList_ofList]
    rfl

/-- The digits of a number are not taken for a sign. -/
theorem toDigits_ne_minus (n : Nat) (cs : List Char) : Nat.toDigits 10 n ≠ '-' :: cs := by
  intro h
  have hdigit := isDigit_toDigits n '-' (by rw [h]; exact List.mem_cons_self)
  cases hdigit

theorem isNumber_ofInt (n : Int) : isNumber (ofInt n).toList = true := by
  rw [toList_ofInt]
  split
  · unfold isNumber
    split
    next h => exact absurd h (toDigits_ne_minus _ _)
    next => exact isUnsigned_toDigits _
  · exact isUnsigned_toDigits _

/-- An integer that a word can hold is read back from its lexeme. -/
theorem int?_ofInt {n : Int} (hlo : -(Word.half : Int) ≤ n) (hhi : n ≤ (Word.max : Int)) :
    int? (ofInt n) = some n := by
  unfold int?
  rw [toList_ofInt]
  split
  next cs h =>
    split at h
    next => exact absurd h (toDigits_ne_minus _ _)
    next hneg =>
      obtain ⟨-, rfl⟩ := List.cons.inj h
      have hpos : 0 < (-n).toNat := by omega
      have hle : (-n).toNat ≤ Word.half := by omega
      rw [isDigits_toDigits, natOf_toDigits, decide_eq_true hpos, decide_eq_true hle]
      simp only [Bool.and_self, if_true]
      congr 1
      omega
  next hnot =>
    split
    next hnonneg =>
      have hle : n.toNat ≤ Word.max := by omega
      rw [isDigits_toDigits, natOf_toDigits, decide_eq_true hle]
      simp only [Bool.and_self, if_true]
      congr 1
      omega
    next hneg =>
      rw [if_neg hneg] at hnot
      exact absurd rfl (hnot _)

-- ============================================================================
-- Finiteness
-- ============================================================================

theorem le_foldl_digits (n : Nat) (cs : List Char) :
    n ≤ cs.foldl (fun n c => 10 * n + digitVal c) n := by
  induction cs generalizing n with
  | nil => exact Nat.le_refl n
  | cons c cs ih =>
    rw [List.foldl_cons]
    have := ih (10 * n + digitVal c)
    omega

/-- Digits that fit a word all count. -/
theorem significand_of_le {n : Nat} {cs : List Char}
    (h : cs.foldl (fun n c => 10 * n + digitVal c) n ≤ Word.max) :
    significand n cs = (cs.foldl (fun n c => 10 * n + digitVal c) n, []) := by
  induction cs generalizing n with
  | nil => rfl
  | cons c cs ih =>
    rw [List.foldl_cons] at h
    have hle := le_foldl_digits (10 * n + digitVal c) cs
    rw [significand, if_neg (by omega), ih h, List.foldl_cons]

theorem round53_le (n : Nat) : round53 n ≤ 2 * n := by
  unfold round53
  split
  · omega
  next hbig =>
    have hunit : 1 <<< (n.log2 - 52) ≤ n := by
      rw [Nat.shiftLeft_eq, Nat.one_mul]
      calc 2 ^ (n.log2 - 52) ≤ 2 ^ n.log2 := Nat.pow_le_pow_right (by decide) (Nat.sub_le ..)
        _ ≤ n := Nat.log2_self_le (by omega)
    have hdiv := Nat.div_mul_le_self n (1 <<< (n.log2 - 52))
    dsimp only
    split
    · rw [Nat.succ_mul]
      omega
    · omega

theorem isFiniteScaled_zero {n : Nat} (h : n ≤ Word.max) : isFiniteScaled n 0 = true := by
  have hround := round53_le n
  have hten : round53 (Nat.pow 10 (0 : Int).toNat) = 1 := by decide
  have hroom : 2 * Word.max < (1 <<< 1024) - (1 <<< 970) := by decide
  have hlt : round53 n * round53 (Nat.pow 10 (0 : Int).toNat) < (1 <<< 1024) - (1 <<< 970) := by
    rw [hten, Nat.mul_one]
    omega
  unfold isFiniteScaled
  rw [decide_eq_true hlt]
  simp

theorem isFinite_of_digits {lexeme : String} {n : Nat} (hn : n ≤ Word.max)
    (h : lexeme.toList = Nat.toDigits 10 n ∨ lexeme.toList = '-' :: Nat.toDigits 10 n) :
    isFinite lexeme = true := by
  have hsig : significand 0 (Nat.toDigits 10 n) = (n, []) := by
    have hval : (Nat.toDigits 10 n).foldl (fun n c => 10 * n + digitVal c) 0 = n := natOf_toDigits n
    rw [significand_of_le (by rw [hval]; exact hn), hval]
  have hwhole := takeWhile_isDigit (isDigit_toDigits n)
  have hafter := dropWhile_isDigit (isDigit_toDigits n)
  unfold isFinite
  rcases h with h | h
  · rw [h]
    split
    next hminus => exact absurd hminus (toDigits_ne_minus _ _)
    next =>
      simp only [hwhole, hafter, hsig]
      exact isFiniteScaled_zero hn
  · rw [h]
    simp only [hwhole, hafter, hsig]
    exact isFiniteScaled_zero hn

/-- The lexeme of an integer that a word can hold is finite. -/
theorem isFinite_ofInt {n : Int} (hlo : -(Word.half : Int) ≤ n) (hhi : n ≤ (Word.max : Int)) :
    isFinite (ofInt n) = true := by
  have hhalf : Word.half ≤ Word.max := by decide
  have hlist := toList_ofInt n
  split at hlist
  · exact isFinite_of_digits (by omega) (Or.inl hlist)
  · exact isFinite_of_digits (by omega) (Or.inr hlist)

end Number

-- ============================================================================
-- Escaped text
-- ============================================================================

namespace Quoted

theorem hexDigit?_hexDigit : ∀ n < 16, hexDigit? (hexDigit n) = some n := by decide

theorem hex4?_hexDigit {n : Nat} (h : n < 32) :
    hex4? '0' '0' (hexDigit (n / 16)) (hexDigit (n % 16)) = some n := by
  have hzero : hexDigit? '0' = some 0 := rfl
  unfold hex4?
  rw [hzero, hexDigit?_hexDigit (n / 16) (by omega), hexDigit?_hexDigit (n % 16) (by omega)]
  show some (((0 * 16 + 0) * 16 + n / 16) * 16 + n % 16) = some n
  congr 1
  omega

/-- A character is either escaped, in one of three ways, or stands for itself. -/
theorem escape_cases (c : Char) :
    (∃ e, escape c = ['\\', e] ∧ e ≠ 'u' ∧ simpleEscape? e = some c ∧ Lexer.isEscape e = true) ∨
    (c.toNat < 32 ∧
      escape c = ['\\', 'u', '0', '0', hexDigit (c.toNat / 16), hexDigit (c.toNat % 16)]) ∨
    (¬ c.toNat < 32 ∧ c ≠ '"' ∧ c ≠ '\\' ∧ escape c = [c]) := by
  unfold escape
  by_cases hquote : c = '"'
  · subst hquote
    exact Or.inl ⟨'"', rfl, by decide, rfl, rfl⟩
  · rw [if_neg hquote]
    by_cases hback : c = '\\'
    · subst hback
      exact Or.inl ⟨'\\', rfl, by decide, rfl, rfl⟩
    · rw [if_neg hback]
      split
      next h => exact Or.inl ⟨'b', rfl, by decide, by rw [h]; rfl, rfl⟩
      split
      next h => exact Or.inl ⟨'f', rfl, by decide, by rw [h]; rfl, rfl⟩
      split
      next h => exact Or.inl ⟨'n', rfl, by decide, by rw [h]; rfl, rfl⟩
      split
      next h => exact Or.inl ⟨'r', rfl, by decide, by rw [h]; rfl, rfl⟩
      split
      next h => exact Or.inl ⟨'t', rfl, by decide, by rw [h]; rfl, rfl⟩
      split
      next h => exact Or.inr (Or.inl ⟨h, rfl⟩)
      next h => exact Or.inr (Or.inr ⟨h, hquote, hback, rfl⟩)

theorem decodeOnto_escape (done : List Char) (c : Char) (rest : List Char) :
    decodeOnto done (escape c ++ rest) = decodeOnto (c :: done) rest := by
  rcases escape_cases c with ⟨e, he, hu, hsimple, -⟩ | ⟨hlow, he⟩ | ⟨-, -, hback, he⟩
  · rw [he]
    show decodeOnto done ('\\' :: e :: rest) = _
    rw [decodeOnto]
    · rw [hsimple]
    · intro _ _ _ _ _ h _
      exact hu h
  · rw [he]
    show decodeOnto done
      ('\\' :: 'u' :: '0' :: '0' :: hexDigit (c.toNat / 16) :: hexDigit (c.toNat % 16) :: rest) = _
    rw [decodeOnto, hex4?_hexDigit hlow]
    have hhigh : isHigh c.toNat = false := by
      simp only [isHigh, Bool.and_eq_false_iff, decide_eq_false_iff_not]
      omega
    have hpair : isLow c.toNat = false := by
      simp only [isLow, Bool.and_eq_false_iff, decide_eq_false_iff_not]
      omega
    simp only [hhigh, hpair, Char.ofNat_toNat]
    rfl
  · rw [he]
    show decodeOnto done (c :: rest) = _
    rw [decodeOnto]
    · intro _ _ _ _ _ h
      exact absurd h hback
    · intro _ _ h
      exact absurd h hback
    · intro h
      exact absurd h hback

/-- Escaped text denotes the text that was escaped. -/
theorem decode?_encode (s : String) : decode? (encode s) = some s := by
  have h : ∀ (cs done : List Char),
      decodeOnto done (cs.flatMap escape) = some (done.reverse ++ cs) := by
    intro cs
    induction cs with
    | nil =>
      intro done
      rw [List.append_nil]
      rfl
    | cons c cs ih =>
      intro done
      rw [List.flatMap_cons, decodeOnto_escape, ih, List.reverse_cons, List.append_assoc]
      rfl
  unfold decode? encode
  rw [String.toList_ofList, h]
  simp

end Quoted

end HotPath.Json
