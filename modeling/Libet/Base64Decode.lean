/-
Libet/Base64Decode.lean

`base64_decode` on any string.

`decodeChecked` follows the source statement by statement: the loop reads
`encoded_string` by its index, and every access to `char_array_4` and
`char_array_3` is checked.  What `find` leaves in cell `j` for a character
outside the alphabet is a parameter `fill j`; the source has 255 in all of them.

`decodeChecked_eq`: no index is ever outside, whatever the string is, and the
result is that of `base64Decode`, so it depends neither on the fill values nor on
what the arrays hold at first.  `base64Decode_prefix` says which bytes these are:
the complete ones of the 6-bit words of the longest base64 prefix.
-/
import Libet.Base64
import Libet.Lib.Cells

namespace Libet

open BitString

/-! ### The function -/

/-- The variables: `ret`, `i`, `char_array_4` and `char_array_3`. -/
structure DecodeVars where
  ret : List UInt8
  i : Nat
  array4 : Cells 4 UInt8
  array3 : Cells 3 UInt8

/-- `char_array_4[j] = base64_chars.find(char_array_4[j])` for all four. -/
def findAll (fill : Nat → UInt8) (a : Cells 4 UInt8) : Except Nat (Cells 4 UInt8) :=
  (List.range 4).foldlM (fun a j => do a.set j (base64Find (fill j) (← a.get j))) a

/-- `for (j = i; j < 4; j++) char_array_4[j] = 0;` -/
def zeroFrom (a : Cells 4 UInt8) (i : Nat) : Except Nat (Cells 4 UInt8) :=
  (List.range' i (4 - i)).foldlM (fun a j => a.set j 0) a

/-- The three assignments to `char_array_3`. -/
def regroup (q : Cells 4 UInt8) (a : Cells 3 UInt8) : Except Nat (Cells 3 UInt8) := do
  let a ← a.set 0 (((← q.get 0) <<< 2) + (((← q.get 1) &&& 0x30) >>> 4))
  let a ← a.set 1 ((((← q.get 1) &&& 0xf) <<< 4) + (((← q.get 2) &&& 0x3c) >>> 2))
  a.set 2 ((((← q.get 2) &&& 0x3) <<< 6) + (← q.get 3))

/-- `for (j = 0; j < k; j++) ret += char_array_3[j];` -/
def emit (k : Nat) (ret : List UInt8) (a : Cells 3 UInt8) : Except Nat (List UInt8) :=
  (List.range k).foldlM (fun ret j => do return ret ++ [← a.get j]) ret

/-- The body of the loop, for the character it has found. -/
def base64Turn (fill : Nat → UInt8) (v : DecodeVars) (c : UInt8) : Except Nat DecodeVars := do
  let array4 ← v.array4.set v.i c
  if v.i + 1 = 4 then
    let array4 ← findAll fill array4
    let array3 ← regroup array4 v.array3
    return ⟨← emit 3 v.ret array3, 0, array4, array3⟩
  return { v with i := v.i + 1, array4 := array4 }

/-- The loop.  `encoded_string[in_]` at the end of the string is the terminator. -/
def base64Loop (fill : Nat → UInt8) (s : List UInt8) (inLen : Int) (pos : Nat)
    (v : DecodeVars) : Except Nat DecodeVars :=
  if _h : inLen ≠ 0 ∧ s.getD pos 0 ≠ padChar ∧ isBase64 (s.getD pos 0) then
    match base64Turn fill v (s.getD pos 0) with
    | .error i => .error i
    | .ok v => base64Loop fill s (toInt32 (inLen - 1)) (pos + 1) v
  else .ok v
termination_by s.length - pos
decreasing_by
  have hlt : pos < s.length := by
    by_contra hge
    rw [List.getD_eq_default _ _ (Nat.le_of_not_lt hge)] at _h
    exact absurd _h.2.2 (by decide)
  omega

/-- `base64_decode`, with its arrays. -/
def decodeChecked (fill : Nat → UInt8) (a₄ : Cells 4 UInt8) (a₃ : Cells 3 UInt8)
    (s : List UInt8) : Except Nat (List UInt8) := do
  let v ← base64Loop fill s (toInt32 s.length) 0 ⟨[], 0, a₄, a₃⟩
  if v.i = 0 then return v.ret
  let array4 ← zeroFrom v.array4 v.i
  let array4 ← findAll fill array4
  let array3 ← regroup array4 v.array3
  emit (v.i - 1) v.ret array3

/-! ### The arrays -/

theorem findAll_eq (fill : Nat → UInt8) (a : Cells 4 UInt8) :
    findAll fill a = .ok fun j => base64Find (fill j) (a j) := by
  show Except.ok _ = _
  congr 1
  funext j
  match j with
  | 0 => rfl
  | 1 => rfl
  | 2 => rfl
  | 3 => rfl

theorem zeroFrom_eq (a : Cells 4 UInt8) {i : Nat} (hi : i < 4) :
    zeroFrom a i = .ok fun j => if j.val < i then a j else 0 := by
  have hall : ∀ i : Fin 4, zeroFrom a i = .ok fun j => if j.val < i.val then a j else 0 := by
    intro i
    match i with
    | 0 | 1 | 2 | 3 =>
        show Except.ok _ = _
        congr 1
        funext j
        match j with
        | 0 => rfl
        | 1 => rfl
        | 2 => rfl
        | 3 => rfl
  exact hall ⟨i, hi⟩

/-- What is emitted of `char_array_3`. -/
theorem regroup_emit (q : Cells 4 UInt8) (a : Cells 3 UInt8) :
    ∃ a', regroup q a = .ok a' ∧
      ∀ k ≤ 3, ∀ ret, emit k ret a' = .ok (ret ++ (octetArray q).take k) := by
  refine ⟨_, rfl, fun k hk ret => ?_⟩
  match k, hk with
  | 0, _ => exact congrArg _ (List.append_nil ret).symm
  | 1, _ => rfl
  | 2, _ => exact congrArg _ (List.append_assoc ret _ _)
  | 3, _ =>
      show Except.ok (ret ++ [_] ++ [_] ++ [_]) = _
      rw [List.append_assoc, List.append_assoc]
      rfl

/-- What the tail emits does not depend on the cells behind the characters. -/
theorem octetArray_take_congr {q q' : Fin 4 → UInt8} {i : Nat} (hi : i < 4)
    (h : ∀ j : Fin 4, j.val < i → q j = q' j) :
    (octetArray q).take (i - 1) = (octetArray q').take (i - 1) := by
  match i, hi with
  | 0, _ => rfl
  | 1, _ => rfl
  | 2, _ =>
      simp only [octetArray, h 0 (by decide), h 1 (by decide)]
      rfl
  | 3, _ =>
      simp only [octetArray, h 0 (by decide), h 1 (by decide), h 2 (by decide)]
      rfl

/-! ### The source's arrays and the decoder's state -/

variable {v : DecodeVars} {st : DecodeState} {fill : Nat → UInt8} {c : UInt8}

/-- The variables are those of the decoder in the state `st`, and the characters in
`char_array_4` are base64 characters. -/
structure Follows (v : DecodeVars) (st : DecodeState) : Prop where
  ret : v.ret = st.ret
  i : v.i = st.i.val
  chars : v.array4 = st.chars
  base64 : ∀ j : Fin 4, j.val < st.i.val → st.chars j ∈ base64Chars

/-- `find` finds a base64 character, whatever it leaves for another. -/
theorem base64Find_congr (fill fill' : UInt8) (h : c ∈ base64Chars) :
    base64Find fill c = base64Find fill' c := by
  rw [base64Find_eq fill h, base64Find_eq fill' h]

/-- **One turn stays inside the arrays.** -/
theorem turn_follows (fill : Nat → UInt8) (h : Follows v st) (hc : c ∈ base64Chars) :
    ∃ v', base64Turn fill v c = .ok v' ∧ Follows v' (st.push 255 c) := by
  have hset := Cells.set_ok (a := v.array4) (x := c) (i := v.i) (by rw [h.i]; exact st.i.isLt)
  have hupdate : Function.update v.array4 ⟨v.i, by rw [h.i]; exact st.i.isLt⟩ c =
      Function.update st.chars st.i c := by
    rw [h.chars]
    congr 1
    exact Fin.ext h.i
  have hchars : ∀ j : Fin 4, j.val < st.i.val + 1 →
      Function.update st.chars st.i c j ∈ base64Chars := by
    intro j hj
    by_cases hji : j = st.i
    · rw [hji, Function.update_self]
      exact hc
    · have hne : j.val ≠ st.i.val := fun heq => hji (Fin.ext heq)
      rw [Function.update_of_ne hji]
      exact h.base64 j (by omega)
  rw [hupdate] at hset
  by_cases hlt : st.i.val + 1 < 4
  · refine ⟨{ v with i := v.i + 1, array4 := Function.update st.chars st.i c }, ?_, ?_⟩
    · rw [base64Turn, hset, Cells.ok_bind, if_neg (by rw [h.i]; omega)]
      rfl
    · rw [DecodeState.push, dif_pos hlt]
      exact ⟨h.ret, congrArg (· + 1) h.i, rfl, hchars⟩
  · -- the array is full
    obtain ⟨a', hregroup, hemit⟩ := regroup_emit
      (fun j => base64Find (fill j) (Function.update st.chars st.i c j)) v.array3
    have hfind : (fun j : Fin 4 => base64Find (fill j) (Function.update st.chars st.i c j)) =
        fun j => base64Find 255 (Function.update st.chars st.i c j) := by
      funext j
      exact base64Find_congr _ _ (hchars j (by omega))
    refine ⟨⟨v.ret ++ octetArray fun j => base64Find 255 (Function.update st.chars st.i c j), 0,
      fun j => base64Find 255 (Function.update st.chars st.i c j), a'⟩, ?_, ?_⟩
    · rw [base64Turn, hset, Cells.ok_bind, if_pos (by rw [h.i]; omega)]
      simp only [findAll_eq, Cells.ok_bind, hregroup, hemit 3 (Nat.le_refl 3)]
      rw [hfind]
      rfl
    · rw [DecodeState.push, dif_neg hlt]
      exact ⟨congrArg (· ++ _) h.ret, rfl, rfl, fun j hj => absurd hj (Nat.not_lt_zero _)⟩

/-- **The loop stays inside the arrays**, and goes through the states of
`decodeTurns`. -/
theorem loop_follows (fill : Nat → UInt8) (s : List UInt8) (inLen : Int) (pos : Nat)
    (h : Follows v st) :
    ∃ v', base64Loop fill s inLen pos v = .ok v' ∧
      Follows v' (decodeTurns 255 inLen (s.drop pos) st) := by
  induction hn : s.length - pos generalizing inLen pos v st with
  | zero =>
      -- the terminator ends the loop
      have hend : s.getD pos 0 = 0 := List.getD_eq_default _ _ (by omega)
      refine ⟨v, ?_, ?_⟩
      · rw [base64Loop, hend, dif_neg fun hcond => absurd hcond.2.2 (by decide)]
      · rw [List.drop_eq_nil_of_le (by omega)]
        exact h
  | succ n ih =>
      have hlt : pos < s.length := by omega
      have hget : s.getD pos 0 = s[pos] := List.getD_eq_getElem _ _ hlt
      rw [base64Loop, List.drop_eq_getElem_cons hlt, decodeTurns, hget]
      by_cases hcond : inLen ≠ 0 ∧ s[pos] ≠ padChar ∧ isBase64 s[pos]
      · obtain ⟨v', hturn, hv'⟩ := turn_follows fill h (mem_base64Chars _ hcond.2.2)
        obtain ⟨v'', hloop, hv''⟩ := ih (toInt32 (inLen - 1)) (pos + 1) hv' (by omega)
        refine ⟨v'', ?_, ?_⟩
        · rw [dif_pos hcond, hturn]
          exact hloop
        · rw [if_pos hcond]
          exact hv''
      · refine ⟨v, dif_neg hcond, ?_⟩
        rw [if_neg hcond]
        exact h

/-- **`base64_decode` never leaves its arrays**, for any string and whatever `find`
leaves for a character outside the alphabet; and the result depends neither on that
nor on what the arrays hold at first. -/
theorem decodeChecked_eq (fill : Nat → UInt8) (a₄ : Cells 4 UInt8) (a₃ : Cells 3 UInt8)
    (s : List UInt8) : decodeChecked fill a₄ a₃ s = .ok (base64Decode a₄ s) := by
  have hstart : Follows ⟨[], 0, a₄, a₃⟩ ⟨[], 0, a₄⟩ :=
    ⟨rfl, rfl, rfl, fun j hj => absurd hj (Nat.not_lt_zero _)⟩
  obtain ⟨v, hloop, hv⟩ := loop_follows fill s (toInt32 s.length) 0 hstart
  rw [List.drop_zero] at hv
  obtain ⟨st, hst⟩ : ∃ st, st = decodeTurns 255 (toInt32 s.length) s ⟨[], 0, a₄⟩ := ⟨_, rfl⟩
  rw [decodeChecked, hloop, Cells.ok_bind, base64Decode, decodeWith, ← hst]
  rw [← hst] at hv
  by_cases hi : st.i = 0
  · have hvi : v.i = 0 := by rw [hv.i, hi]; rfl
    rw [if_pos hvi, DecodeState.finish, if_pos hi, hv.ret]
    rfl
  · -- a tail, completed with zeros and with what `find` leaves for them
    have hvi : v.i ≠ 0 := fun h => hi (Fin.ext (hv.i.symm.trans h))
    have hlt : v.i < 4 := by rw [hv.i]; exact st.i.isLt
    obtain ⟨a', hregroup, hemit⟩ := regroup_emit
      (fun j => base64Find (fill j) (if j.val < v.i then v.array4 j else 0)) v.array3
    rw [if_neg hvi, DecodeState.finish, if_neg hi]
    simp only [zeroFrom_eq _ hlt, findAll_eq, Cells.ok_bind, hregroup,
      hemit (v.i - 1) (by omega)]
    rw [hv.ret, hv.i, hv.chars]
    congr 2
    apply octetArray_take_congr st.i.isLt
    intro j hj
    rw [if_pos hj, if_pos (show j < st.i from hj)]
    exact base64Find_congr _ _ (hv.base64 j hj)

/-! ### Which bytes come out -/

theorem isBase64_iff (c : UInt8) : isBase64 c = decide (c ∈ base64Chars) := by
  cases h : isBase64 c with
  | true => exact (decide_eq_true (mem_base64Chars c h)).symm
  | false =>
      symm
      apply decide_eq_false
      intro hmem
      rw [(idxOf_base64Chars c hmem).2.2] at h
      cases h

/-- The longest prefix of base64 characters. -/
def base64Prefix (s : List UInt8) : List UInt8 := s.takeWhile fun c => decide (c ∈ base64Chars)

theorem base64Decode_eq (a₄ : Cells 4 UInt8) {s : List UInt8} (hs : s.length < 2 ^ 31) :
    base64Decode a₄ s = octets ((base64Prefix s).map sextetOf) := by
  have hpred : isBase64 = fun c => decide (c ∈ base64Chars) := funext isBase64_iff
  rw [base64Decode, decodeWith_eq _ _ (by omega), hpred]
  rfl

theorem octets_length (v : List Nat) : (octets v).length = 6 * v.length / 8 := by
  rw [octets, List.length_map, whole_length (by decide), string_length]

theorem string_octets (v : List Nat) :
    string 8 ((octets v).map UInt8.toNat) = (string 6 v).take (8 * (6 * v.length / 8)) := by
  rw [octets_toNat, string_whole_take (by decide), string_length]

/-- **`base64_decode` on arbitrary input.**  For every string, with `p` its longest
prefix of base64 characters: the decoder stays inside its arrays and returns
`⌊3 |p| / 4⌋` bytes, whose bits are the first `8 ⌊6 |p| / 8⌋` bits of the 6-bit words
of `p`.  It returns the same for every string with this prefix, whatever the arrays
hold at first and whatever `find` leaves for a character outside the alphabet. -/
theorem base64Decode_prefix (fill : Nat → UInt8) (a₄ : Cells 4 UInt8) (a₃ : Cells 3 UInt8)
    {s : List UInt8} (hs : s.length < 2 ^ 31) :
    ∃ r, decodeChecked fill a₄ a₃ s = .ok r ∧
      r.length = 3 * (base64Prefix s).length / 4 ∧
      string 8 (r.map UInt8.toNat) = (string 6 ((base64Prefix s).map sextetOf)).take
        (8 * (6 * (base64Prefix s).length / 8)) ∧
      ∀ (fill' : Nat → UInt8) (a₄' : Cells 4 UInt8) (a₃' : Cells 3 UInt8) (s' : List UInt8),
        s'.length < 2 ^ 31 → base64Prefix s' = base64Prefix s →
          decodeChecked fill' a₄' a₃' s' = .ok r := by
  refine ⟨octets ((base64Prefix s).map sextetOf), ?_, ?_, ?_, fun fill' a₄' a₃' s' hs' hp => ?_⟩
  · rw [decodeChecked_eq, base64Decode_eq a₄ hs]
  · rw [octets_length, List.length_map]
    omega
  · rw [string_octets, List.length_map]
  · rw [decodeChecked_eq, base64Decode_eq a₄' hs', hp]

/-- `Zm9!v`: three base64 characters give two bytes. -/
theorem base64Decode_prefix_tail :
    ∃ r, decodeChecked (fun _ => 255) (fun _ => 255) (fun _ => 255) [90, 109, 57, 33, 118] = .ok r ∧
      r.length = 2 := by
  obtain ⟨r, hr, hlen, -⟩ := base64Decode_prefix (fun _ => 255) (fun _ => 255) (fun _ => 255)
    (s := [90, 109, 57, 33, 118]) (by decide)
  have hprefix : (base64Prefix [90, 109, 57, 33, 118]).length = 3 := by
    decide +kernel
  exact ⟨r, hr, by rw [hlen, hprefix]⟩

end Libet
