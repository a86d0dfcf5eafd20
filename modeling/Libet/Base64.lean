/-
Libet/Base64.lean

`base64.cpp`: the encoder and the decoder.

Both loops collect characters in a small array and empty it when it is full; a
tail that does not fill the array is handled behind the loop.  The arrays are
functions on `Fin 3` and `Fin 4`, so every index used lies inside them; what they
hold at first is a parameter, as the source does not initialise them.  `find`
answers `npos` for a character outside the alphabet, which becomes 255 in an
`unsigned char`; the decoder fills its tail with such values.

Written as bit strings, the encoder cuts the bits of the bytes into words of six,
the last one filled up (`sextets`), and the decoder cuts the bits of the sextets
into complete bytes (`octets`).
-/
import Libet.CInt
import Libet.Lib.BitString
import Mathlib.Data.Fin.Basic
import Mathlib.Data.List.Basic
import Mathlib.Logic.Function.Basic
import Mathlib.Tactic.IntervalCases

namespace Libet

open BitString

/-- `base64_chars`. -/
def base64Chars : List UInt8 :=
  ['A', 'B', 'C', 'D', 'E', 'F', 'G', 'H', 'I', 'J', 'K', 'L', 'M', 'N', 'O', 'P', 'Q', 'R',
    'S', 'T', 'U', 'V', 'W', 'X', 'Y', 'Z', 'a', 'b', 'c', 'd', 'e', 'f', 'g', 'h', 'i', 'j',
    'k', 'l', 'm', 'n', 'o', 'p', 'q', 'r', 's', 't', 'u', 'v', 'w', 'x', 'y', 'z', '0', '1',
    '2', '3', '4', '5', '6', '7', '8', '9', '+', '/'].map fun c => c.toNat.toUInt8

/-- The character `'='`. -/
def padChar : UInt8 := 61

/-- `is_base64`; `isalnum` is that of the C locale. -/
def isBase64 (c : UInt8) : Bool :=
  (65 ≤ c && c ≤ 90 || 97 ≤ c && c ≤ 122 || 48 ≤ c && c ≤ 57) || c == 43 || c == 47

/-- `base64_chars[k]`. -/
def base64Char (k : Nat) : UInt8 := base64Chars.getD k 0

/-- `base64_chars.find(c)` as an `unsigned char`; `fill` is what `npos` becomes. -/
def base64Find (fill c : UInt8) : UInt8 :=
  match base64Chars.idxOf? c with
  | some k => k.toUInt8
  | none => fill

/-! ### The encoder -/

/-- `char_array_4`, computed from `char_array_3`. -/
def sextetArray (a : Fin 3 → UInt8) : List UInt8 :=
  [(a 0 &&& 0xfc) >>> 2,
    ((a 0 &&& 0x03) <<< 4) + ((a 1 &&& 0xf0) >>> 4),
    ((a 1 &&& 0x0f) <<< 2) + ((a 2 &&& 0xc0) >>> 6),
    a 2 &&& 0x3f]

/-- The encoder's variables: `ret`, `i` and `char_array_3`. -/
structure EncodeState where
  ret : List UInt8
  i : Fin 3
  chars : Fin 3 → UInt8

/-- One turn of the encoder's loop. -/
def EncodeState.push (s : EncodeState) (b : UInt8) : EncodeState :=
  let chars := Function.update s.chars s.i b
  if h : s.i.val + 1 < 3 then
    { s with i := ⟨s.i.val + 1, h⟩, chars := chars }
  else
    ⟨s.ret ++ (sextetArray chars).map fun k => base64Char k.toNat, 0, chars⟩

/-- The encoder behind its loop. -/
def EncodeState.finish (s : EncodeState) : List UInt8 :=
  if s.i = 0 then s.ret
  else
    let chars := fun j => if j < s.i then s.chars j else 0
    s.ret ++ ((sextetArray chars).take (s.i.val + 1)).map (fun k => base64Char k.toNat) ++
      List.replicate (3 - s.i.val) padChar

/-- `base64_encode` of the `in_len` bytes it is given. -/
def base64Encode (a : Fin 3 → UInt8) (bytes : List UInt8) : List UInt8 :=
  (bytes.foldl EncodeState.push ⟨[], 0, a⟩).finish

/-! ### The decoder -/

/-- `char_array_3`, computed from `char_array_4`. -/
def octetArray (q : Fin 4 → UInt8) : List UInt8 :=
  [(q 0 <<< 2) + ((q 1 &&& 0x30) >>> 4),
    ((q 1 &&& 0xf) <<< 4) + ((q 2 &&& 0x3c) >>> 2),
    ((q 2 &&& 0x3) <<< 6) + q 3]

/-- The decoder's variables: `ret`, `i` and `char_array_4`. -/
structure DecodeState where
  ret : List UInt8
  i : Fin 4
  chars : Fin 4 → UInt8

/-- One turn of the decoder's loop. -/
def DecodeState.push (fill : UInt8) (s : DecodeState) (c : UInt8) : DecodeState :=
  let chars := Function.update s.chars s.i c
  if h : s.i.val + 1 < 4 then
    { s with i := ⟨s.i.val + 1, h⟩, chars := chars }
  else
    let q := fun j => base64Find fill (chars j)
    ⟨s.ret ++ octetArray q, 0, q⟩

/-- The decoder's loop.  `in_len` counts down as an `int`; behind the last
character there is the terminator, which is not a base64 character. -/
def decodeTurns (fill : UInt8) : Int → List UInt8 → DecodeState → DecodeState
  | _, [], s => s
  | inLen, c :: rest, s =>
      if inLen ≠ 0 ∧ c ≠ padChar ∧ isBase64 c then
        decodeTurns fill (toInt32 (inLen - 1)) rest (s.push fill c)
      else s

/-- The decoder behind its loop. -/
def DecodeState.finish (fill : UInt8) (s : DecodeState) : List UInt8 :=
  if s.i = 0 then s.ret
  else
    let q := fun j => base64Find fill (if j < s.i then s.chars j else 0)
    s.ret ++ (octetArray q).take (s.i.val - 1)

/-- The decoder for any value of `(unsigned char)npos`. -/
def decodeWith (fill : UInt8) (a : Fin 4 → UInt8) (s : List UInt8) : List UInt8 :=
  (decodeTurns fill (toInt32 s.length) s ⟨[], 0, a⟩).finish fill

/-- `base64_decode`. -/
def base64Decode (a : Fin 4 → UInt8) (s : List UInt8) : List UInt8 := decodeWith 255 a s

/-! ### RFC 4648 -/

/-- The 6-bit words of the bytes. -/
def sextets (x : List UInt8) : List Nat := groups 6 (string 8 (x.map UInt8.toNat))

/-- The base64 encoding of RFC 4648: the characters of the sextets, padded to a
multiple of four. -/
def rfc4648 (x : List UInt8) : List UInt8 :=
  (sextets x).map base64Char ++ List.replicate ((3 - x.length % 3) % 3) padChar

/-- The complete bytes of a list of 6-bit words. -/
def octets (v : List Nat) : List UInt8 := (whole 8 (string 6 v)).map Nat.toUInt8

/-- The 6-bit word of a base64 character. -/
def sextetOf (c : UInt8) : Nat := base64Chars.idxOf c

/-- The canonical strings of RFC 4648: the length is a multiple of four, there
are at most two pads, at the end, and the bits the pads stand for are zero. -/
def Canonical (s : List UInt8) : Prop :=
  ∃ body p, s = body ++ List.replicate p padChar ∧ p ≤ 2 ∧ s.length % 4 = 0 ∧
    (∀ c ∈ body, c ∈ base64Chars) ∧ ∀ c ∈ body.getLast?, sextetOf c % 4 ^ p = 0

/-! ### Bytes and 6-bit words -/

theorem forall_byte {P : UInt8 → Prop} (h : ∀ n < 256, P n.toUInt8) (b : UInt8) : P b := by
  have hb := h b.toNat b.toNat_lt
  rwa [Nat.toUInt8, UInt8.ofNat_toNat] at hb

/-- The masks and shifts of the encoder. -/
theorem encode_masks (b : UInt8) :
    ((b &&& 0xfc) >>> 2).toNat = b.toNat / 4 ∧ ((b &&& 0x03) <<< 4).toNat = b.toNat % 4 * 16 ∧
      ((b &&& 0xf0) >>> 4).toNat = b.toNat / 16 ∧
      ((b &&& 0x0f) <<< 2).toNat = b.toNat % 16 * 4 ∧
      ((b &&& 0xc0) >>> 6).toNat = b.toNat / 64 ∧ (b &&& 0x3f).toNat = b.toNat % 64 := by
  revert b
  apply forall_byte
  decide +kernel

/-- The masks and shifts of the decoder, on 6-bit words. -/
theorem decode_masks : ∀ v : Nat, v < 64 →
    (v.toUInt8 <<< 2).toNat = v * 4 ∧ ((v.toUInt8 &&& 0x30) >>> 4).toNat = v / 16 ∧
      ((v.toUInt8 &&& 0xf) <<< 4).toNat = v % 16 * 16 ∧
      ((v.toUInt8 &&& 0x3c) >>> 2).toNat = v / 4 ∧
      ((v.toUInt8 &&& 0x3) <<< 6).toNat = v % 4 * 64 ∧ v.toUInt8.toNat = v := by
  decide +kernel

theorem add_eq_toUInt8 {x y : UInt8} {m n : Nat} (hx : x.toNat = m) (hy : y.toNat = n) :
    x + y = (m + n).toUInt8 := by
  apply UInt8.toNat.inj
  rw [UInt8.toNat_add, hx, hy]
  exact (UInt8.toNat_ofNat' ..).symm

theorem sextetArray_toNat (a : Fin 3 → UInt8) :
    (sextetArray a).map UInt8.toNat =
      [(a 0).toNat / 4, (a 0).toNat % 4 * 16 + (a 1).toNat / 16,
        (a 1).toNat % 16 * 4 + (a 2).toNat / 64, (a 2).toNat % 64] := by
  obtain ⟨h0, h1, -⟩ := encode_masks (a 0)
  obtain ⟨-, -, h2, h3, -⟩ := encode_masks (a 1)
  obtain ⟨-, -, -, -, h4, h5⟩ := encode_masks (a 2)
  have hb := (a 1).toNat_lt
  have hc := (a 2).toNat_lt
  simp only [sextetArray, List.map_cons, List.map_nil, UInt8.toNat_add, h0, h1, h2, h3, h4, h5]
  rw [Nat.mod_eq_of_lt (show (a 0).toNat % 4 * 16 + (a 1).toNat / 16 < 2 ^ 8 by omega),
    Nat.mod_eq_of_lt (show (a 1).toNat % 16 * 4 + (a 2).toNat / 64 < 2 ^ 8 by omega)]

/-- The bytes that the decoder computes from four 6-bit words; the tails use a
first part of them, which depends on a first part of the words only. -/
theorem octetArray_take (q : Fin 4 → UInt8) {v₀ v₁ : Nat} (h0 : v₀ < 64) (h1 : v₁ < 64)
    (hq0 : q 0 = v₀.toUInt8) (hq1 : q 1 = v₁.toUInt8) :
    (octetArray q).take 1 = [(v₀ * 4 + v₁ / 16).toUInt8] ∧
    ∀ v₂ < 64, q 2 = v₂.toUInt8 →
      (octetArray q).take 2 = [(v₀ * 4 + v₁ / 16).toUInt8, (v₁ % 16 * 16 + v₂ / 4).toUInt8] ∧
      ∀ v₃ < 64, q 3 = v₃.toUInt8 →
        octetArray q = [(v₀ * 4 + v₁ / 16).toUInt8, (v₁ % 16 * 16 + v₂ / 4).toUInt8,
          (v₂ % 4 * 64 + v₃).toUInt8] := by
  obtain ⟨hv0, -⟩ := decode_masks v₀ h0
  obtain ⟨-, hv1, hv1', -⟩ := decode_masks v₁ h1
  have hfst := add_eq_toUInt8 hv0 hv1
  refine ⟨by rw [octetArray, hq0, hq1, hfst]; rfl, fun v₂ h2 hq2 => ?_⟩
  obtain ⟨-, -, -, hv2, hv2', -⟩ := decode_masks v₂ h2
  have hsnd := add_eq_toUInt8 hv1' hv2
  refine ⟨by rw [octetArray, hq0, hq1, hq2, hfst, hsnd]; rfl, fun v₃ h3 hq3 => ?_⟩
  obtain ⟨-, -, -, -, -, hv3⟩ := decode_masks v₃ h3
  rw [octetArray, hq0, hq1, hq2, hq3, hfst, hsnd, add_eq_toUInt8 hv2' hv3]

/-! ### The encoder cuts bytes into sextets -/

@[simp] theorem sextets_nil : sextets [] = [] := groups_nil 6

theorem sextets_one (b : UInt8) : sextets [b] = [b.toNat / 4, b.toNat % 4 * 16] := by
  have hb := b.toNat_lt
  rw [sextets, List.map_cons, List.map_nil, string_cons, string_nil, List.append_nil,
    bits_add 6 2, groups_append (by decide) (bits_length _ _),
    groups_last (List.ne_nil_of_length_eq_add_one (bits_length 2 _)) (by simp), value_bits,
    value_bits, bits_length, Nat.mod_eq_of_lt (show b.toNat / 2 ^ 2 < 2 ^ 6 by omega)]
  rfl

theorem sextets_two (b c : UInt8) : sextets [b, c] =
    [b.toNat / 4, b.toNat % 4 * 16 + c.toNat / 16, c.toNat % 16 * 4] := by
  have hb := b.toNat_lt
  have hc := c.toNat_lt
  rw [sextets, List.map_cons, List.map_cons, List.map_nil, string_cons, string_cons, string_nil,
    List.append_nil, bits_add 6 2, bits_add 4 4, List.append_assoc,
    ← List.append_assoc (bits 2 _), groups_append (by decide) (bits_length _ _),
    groups_append (by decide) (by simp),
    groups_last (List.ne_nil_of_length_eq_add_one (bits_length 4 _)) (by simp), value_bits,
    value_append, value_bits, value_bits, value_bits, bits_length, bits_length,
    Nat.mod_eq_of_lt (show b.toNat / 2 ^ 2 < 2 ^ 6 by omega),
    Nat.mod_eq_of_lt (show c.toNat / 2 ^ 4 < 2 ^ 4 by omega)]
  rfl

theorem sextets_triple (b c d : UInt8) (x : List UInt8) : sextets (b :: c :: d :: x) =
    [b.toNat / 4, b.toNat % 4 * 16 + c.toNat / 16, c.toNat % 16 * 4 + d.toNat / 64,
      d.toNat % 64] ++ sextets x := by
  have hb := b.toNat_lt
  have hc := c.toNat_lt
  have hd := d.toNat_lt
  rw [sextets, List.map_cons, List.map_cons, List.map_cons, string_cons, string_cons,
    string_cons, bits_add 6 2, bits_add 4 4, bits_add 2 6]
  simp only [List.append_assoc]
  rw [← List.append_assoc (bits 2 b.toNat), ← List.append_assoc (bits 4 c.toNat),
    groups_append (by decide) (bits_length _ _), groups_append (by decide) (by simp),
    groups_append (by decide) (by simp), groups_append (by decide) (bits_length _ _)]
  simp only [value_append, value_bits, bits_length]
  rw [Nat.mod_eq_of_lt (show b.toNat / 2 ^ 2 < 2 ^ 6 by omega),
    Nat.mod_eq_of_lt (show c.toNat / 2 ^ 4 < 2 ^ 4 by omega),
    Nat.mod_eq_of_lt (show d.toNat / 2 ^ 6 < 2 ^ 2 by omega)]
  rfl

theorem sextetArray_chars (a : Fin 3 → UInt8) :
    (sextetArray a).map (fun k => base64Char k.toNat) =
      [(a 0).toNat / 4, (a 0).toNat % 4 * 16 + (a 1).toNat / 16,
        (a 1).toNat % 16 * 4 + (a 2).toNat / 64, (a 2).toNat % 64].map base64Char := by
  rw [← sextetArray_toNat, List.map_map]
  rfl

/-- Three bytes fill the array, which is then emptied. -/
theorem EncodeState.push_triple (ret : List UInt8) (a : Fin 3 → UInt8) (b c d : UInt8) :
    ∃ a', ((EncodeState.push ⟨ret, 0, a⟩ b).push c).push d =
      ⟨ret ++ (sextets [b, c, d]).map base64Char, 0, a'⟩ := by
  refine ⟨Function.update (Function.update (Function.update a 0 b) 1 c) 2 d, ?_⟩
  rw [sextets_triple, sextets_nil, List.append_nil]
  show EncodeState.mk (ret ++ (sextetArray _).map fun k => base64Char k.toNat) 0 _ = _
  rw [sextetArray_chars]
  rfl

theorem EncodeState.finish_one (ret : List UInt8) (a : Fin 3 → UInt8) (b : UInt8) :
    (EncodeState.push ⟨ret, 0, a⟩ b).finish =
      ret ++ ((sextets [b]).map base64Char ++ List.replicate 2 padChar) := by
  have hpush : EncodeState.push ⟨ret, 0, a⟩ b = ⟨ret, 1, Function.update a 0 b⟩ := rfl
  rw [hpush, finish, if_neg (show (1 : Fin 3) ≠ 0 by decide)]
  simp [List.map_take, sextetArray_chars, sextets_one]

theorem EncodeState.finish_two (ret : List UInt8) (a : Fin 3 → UInt8) (b c : UInt8) :
    ((EncodeState.push ⟨ret, 0, a⟩ b).push c).finish =
      ret ++ ((sextets [b, c]).map base64Char ++ List.replicate 1 padChar) := by
  have hpush : (EncodeState.push ⟨ret, 0, a⟩ b).push c =
      ⟨ret, 2, Function.update (Function.update a 0 b) 1 c⟩ := rfl
  rw [hpush, finish, if_neg (show (2 : Fin 3) ≠ 0 by decide)]
  simp [List.map_take, sextetArray_chars, sextets_two]

/-- **The encoder computes the encoding of RFC 4648**: three bytes at a time,
and behind them a tail of at most two. -/
theorem EncodeState.finish_foldl_push (x ret : List UInt8) (a : Fin 3 → UInt8) :
    (x.foldl push ⟨ret, 0, a⟩).finish = ret ++ rfc4648 x := by
  match x with
  | [] =>
      rw [rfc4648, sextets_nil]
      exact (List.append_nil ret).symm
  | [b] => exact finish_one ret a b
  | [b, c] => exact finish_two ret a b c
  | b :: c :: d :: x =>
      obtain ⟨a', hpush⟩ := push_triple ret a b c d
      have hpads : (3 - (b :: c :: d :: x).length % 3) % 3 = (3 - x.length % 3) % 3 := by
        simp only [List.length_cons]
        omega
      rw [List.foldl_cons, List.foldl_cons, List.foldl_cons, hpush, finish_foldl_push x _ a',
        rfc4648, rfc4648, hpads, sextets_triple b c d x, sextets_triple, sextets_nil,
        List.append_nil, List.map_append, List.append_assoc, List.append_assoc]

/-! ### The decoder cuts sextets into bytes -/

@[simp] theorem octets_nil : octets [] = [] := by
  rw [octets, string_nil, whole_short (by decide), List.map_nil]

theorem octets_one (v : Nat) : octets [v] = [] := by
  rw [octets, whole_short (by simp), List.map_nil]

section Words

variable {v₀ v₁ v₂ v₃ : Nat} (h0 : v₀ < 64) (h1 : v₁ < 64) (h2 : v₂ < 64) (h3 : v₃ < 64)

include h0 h1

theorem octets_two : octets [v₀, v₁] = [(v₀ * 4 + v₁ / 16).toUInt8] := by
  rw [octets, string_cons, string_cons, string_nil, List.append_nil, bits_add 2 4 v₁,
    ← List.append_assoc, whole_append (by decide) (by simp), whole_short (by simp),
    value_append, value_bits, value_bits, bits_length, Nat.mod_eq_of_lt (show v₀ < 2 ^ 6 from h0),
    Nat.mod_eq_of_lt (show v₁ / 2 ^ 4 < 2 ^ 2 by omega)]
  rfl

include h2

theorem octets_three : octets [v₀, v₁, v₂] =
    [(v₀ * 4 + v₁ / 16).toUInt8, (v₁ % 16 * 16 + v₂ / 4).toUInt8] := by
  rw [octets, string_cons, string_cons, string_cons, string_nil, List.append_nil,
    bits_add 2 4 v₁, bits_add 4 2 v₂]
  simp only [List.append_assoc]
  rw [← List.append_assoc, whole_append (by decide) (by simp), ← List.append_assoc,
    whole_append (by decide) (by simp), whole_short (by simp)]
  simp only [value_append, value_bits, bits_length]
  rw [Nat.mod_eq_of_lt (show v₀ < 2 ^ 6 from h0),
    Nat.mod_eq_of_lt (show v₁ / 2 ^ 4 < 2 ^ 2 by omega),
    Nat.mod_eq_of_lt (show v₂ / 2 ^ 2 < 2 ^ 4 by omega)]
  rfl

include h3

theorem octets_quad (vs : List Nat) : octets (v₀ :: v₁ :: v₂ :: v₃ :: vs) =
    [(v₀ * 4 + v₁ / 16).toUInt8, (v₁ % 16 * 16 + v₂ / 4).toUInt8, (v₂ % 4 * 64 + v₃).toUInt8] ++
      octets vs := by
  rw [octets, string_cons, string_cons, string_cons, string_cons, bits_add 2 4 v₁,
    bits_add 4 2 v₂]
  simp only [List.append_assoc]
  rw [← List.append_assoc, whole_append (by decide) (by simp), ← List.append_assoc,
    whole_append (by decide) (by simp), ← List.append_assoc,
    whole_append (by decide) (by simp)]
  simp only [value_append, value_bits, bits_length]
  rw [Nat.mod_eq_of_lt (show v₀ < 2 ^ 6 from h0),
    Nat.mod_eq_of_lt (show v₁ / 2 ^ 4 < 2 ^ 2 by omega),
    Nat.mod_eq_of_lt (show v₂ / 2 ^ 2 < 2 ^ 4 by omega),
    Nat.mod_eq_of_lt (show v₃ < 2 ^ 6 from h3)]
  rfl

end Words

theorem sextetOf_lt {c : UInt8} (h : c ∈ base64Chars) : sextetOf c < 64 :=
  List.idxOf_lt_length_of_mem h

theorem idxOf_base64Chars :
    ∀ c ∈ base64Chars, base64Chars.idxOf? c = some (sextetOf c) ∧ base64Char (sextetOf c) = c ∧
      isBase64 c = true := by
  decide +kernel

/-- `find` on a base64 character. -/
theorem base64Find_eq (fill : UInt8) {c : UInt8} (h : c ∈ base64Chars) :
    base64Find fill c = (sextetOf c).toUInt8 := by
  rw [base64Find, (idxOf_base64Chars c h).1]

section Characters

variable (fill : UInt8) (ret : List UInt8) (a : Fin 4 → UInt8)

theorem DecodeState.finish_one (c : UInt8) :
    (DecodeState.push fill ⟨ret, 0, a⟩ c).finish fill = ret ++ octets [sextetOf c] := by
  have hpush : DecodeState.push fill ⟨ret, 0, a⟩ c = ⟨ret, 1, Function.update a 0 c⟩ := rfl
  rw [hpush, finish, if_neg (show (1 : Fin 4) ≠ 0 by decide), octets_one]
  rfl

variable {c₀ c₁ c₂ c₃ : UInt8} (h0 : c₀ ∈ base64Chars) (h1 : c₁ ∈ base64Chars)
  (h2 : c₂ ∈ base64Chars) (h3 : c₃ ∈ base64Chars)

include h0 h1

theorem DecodeState.finish_two :
    ((DecodeState.push fill ⟨ret, 0, a⟩ c₀).push fill c₁).finish fill =
      ret ++ octets [sextetOf c₀, sextetOf c₁] := by
  have hpush : (DecodeState.push fill ⟨ret, 0, a⟩ c₀).push fill c₁ =
      ⟨ret, 2, Function.update (Function.update a 0 c₀) 1 c₁⟩ := rfl
  rw [hpush, finish, if_neg (show (2 : Fin 4) ≠ 0 by decide),
    octets_two (sextetOf_lt h0) (sextetOf_lt h1)]
  apply congrArg (ret ++ ·)
  exact (octetArray_take _ (sextetOf_lt h0) (sextetOf_lt h1) (base64Find_eq fill h0)
    (base64Find_eq fill h1)).1

include h2

theorem DecodeState.finish_three :
    (((DecodeState.push fill ⟨ret, 0, a⟩ c₀).push fill c₁).push fill c₂).finish fill =
      ret ++ octets [sextetOf c₀, sextetOf c₁, sextetOf c₂] := by
  have hpush : ((DecodeState.push fill ⟨ret, 0, a⟩ c₀).push fill c₁).push fill c₂ =
      ⟨ret, 3, Function.update (Function.update (Function.update a 0 c₀) 1 c₁) 2 c₂⟩ := rfl
  rw [hpush, finish, if_neg (show (3 : Fin 4) ≠ 0 by decide),
    octets_three (sextetOf_lt h0) (sextetOf_lt h1) (sextetOf_lt h2)]
  apply congrArg (ret ++ ·)
  exact ((octetArray_take _ (sextetOf_lt h0) (sextetOf_lt h1) (base64Find_eq fill h0)
    (base64Find_eq fill h1)).2 _ (sextetOf_lt h2) (base64Find_eq fill h2)).1

include h3

/-- Four characters fill the array, which is then emptied. -/
theorem DecodeState.push_quad :
    ∃ a', (((DecodeState.push fill ⟨ret, 0, a⟩ c₀).push fill c₁).push fill c₂).push fill c₃ =
      ⟨ret ++ octets [sextetOf c₀, sextetOf c₁, sextetOf c₂, sextetOf c₃], 0, a'⟩ := by
  refine ⟨fun j => base64Find fill (Function.update (Function.update (Function.update
    (Function.update a 0 c₀) 1 c₁) 2 c₂) 3 c₃ j), ?_⟩
  show DecodeState.mk (ret ++ octetArray _) 0 _ = _
  rw [octets_quad (sextetOf_lt h0) (sextetOf_lt h1) (sextetOf_lt h2) (sextetOf_lt h3), octets_nil,
    List.append_nil]
  rw [((octetArray_take _ (sextetOf_lt h0) (sextetOf_lt h1) (base64Find_eq fill h0)
    (base64Find_eq fill h1)).2 _ (sextetOf_lt h2) (base64Find_eq fill h2)).2 _ (sextetOf_lt h3)
      (base64Find_eq fill h3)]
  rfl

end Characters

/-- **The decoder on base64 characters**: the complete bytes of their 6-bit
words, whatever `npos` becomes. -/
theorem DecodeState.finish_foldl_push (fill : UInt8) (p ret : List UInt8) (a : Fin 4 → UInt8)
    (hp : ∀ c ∈ p, c ∈ base64Chars) :
    (p.foldl (push fill) ⟨ret, 0, a⟩).finish fill = ret ++ octets (p.map sextetOf) := by
  match p, hp with
  | [], _ =>
      rw [List.map_nil, octets_nil]
      exact (List.append_nil ret).symm
  | [c₀], _ => exact finish_one fill ret a c₀
  | [c₀, c₁], hp => exact finish_two fill ret a (hp c₀ (by simp)) (hp c₁ (by simp))
  | [c₀, c₁, c₂], hp =>
      exact finish_three fill ret a (hp c₀ (by simp)) (hp c₁ (by simp)) (hp c₂ (by simp))
  | c₀ :: c₁ :: c₂ :: c₃ :: p, hp =>
      have h0 := hp c₀ (by simp)
      have h1 := hp c₁ (by simp)
      have h2 := hp c₂ (by simp)
      have h3 := hp c₃ (by simp)
      obtain ⟨a', hpush⟩ := push_quad fill ret a h0 h1 h2 h3
      rw [List.foldl_cons, List.foldl_cons, List.foldl_cons, List.foldl_cons, hpush,
        finish_foldl_push fill p _ a' (fun c hc => hp c (by simp [hc])), List.append_assoc]
      simp only [List.map_cons, octets_quad (sextetOf_lt h0) (sextetOf_lt h1) (sextetOf_lt h2)
        (sextetOf_lt h3), octets_nil, List.append_nil]

/-- The decoder's loop takes the characters up to the first that is not one of
base64: the count does not run out before, as it starts with the length. -/
theorem decodeTurns_eq (fill : UInt8) (s : List UInt8) (hs : s.length < 2 ^ 32) {n : Int}
    (hn : n % 2 ^ 32 = s.length) (st : DecodeState) :
    decodeTurns fill n s st = (s.takeWhile isBase64).foldl (DecodeState.push fill) st := by
  induction s generalizing n st with
  | nil => rfl
  | cons c s ih =>
      rw [List.length_cons] at hs hn
      have hn0 : n ≠ 0 := by rintro rfl; omega
      rw [decodeTurns]
      by_cases hc : isBase64 c = true
      · have hpad : c ≠ padChar := by rintro rfl; exact absurd hc (by decide)
        rw [if_pos ⟨hn0, hpad, hc⟩, List.takeWhile_cons_of_pos hc, List.foldl_cons]
        apply ih (by omega)
        rw [toInt32, Int.bmod_def]
        omega
      · rw [if_neg fun h => hc h.2.2, List.takeWhile_cons_of_neg hc]
        rfl

theorem mem_base64Chars (c : UInt8) : isBase64 c = true → c ∈ base64Chars := by
  revert c
  apply forall_byte
  decide +kernel

/-- **The decoder**: the complete bytes of the longest prefix of base64
characters. -/
theorem decodeWith_eq (fill : UInt8) (a : Fin 4 → UInt8) {s : List UInt8}
    (hs : s.length < 2 ^ 32) :
    decodeWith fill a s = octets ((s.takeWhile isBase64).map sextetOf) := by
  have hmem : ∀ c ∈ s.takeWhile isBase64, c ∈ base64Chars := fun c hc =>
    mem_base64Chars c (List.all_eq_true.mp List.all_takeWhile c hc)
  have hlen : toInt32 s.length % 2 ^ 32 = s.length := by
    rw [toInt32, Int.bmod_def]
    omega
  rw [decodeWith, decodeTurns_eq fill s hs hlen, DecodeState.finish_foldl_push fill _ _ _ hmem,
    List.nil_append]

/-! ### The round trips -/

/-- Regrouping into sextets and back. -/
theorem octets_sextets (x : List UInt8) : octets (sextets x) = x := by
  obtain ⟨k, hk, heq⟩ := string_groups (show 0 < 6 by decide) (string 8 (x.map UInt8.toNat))
  have hlt : ∀ v ∈ x.map UInt8.toNat, v < 2 ^ 8 := by
    intro v hv
    obtain ⟨b, -, rfl⟩ := List.mem_map.mp hv
    exact b.toNat_lt
  rw [octets, sextets, heq, whole_string (by decide) hlt (by rw [List.length_replicate]; omega),
    List.map_map]
  exact (List.map_congr_left fun b _ => UInt8.ofNat_toNat).trans (List.map_id x)

theorem sextets_length (x : List UInt8) : 6 * (sextets x).length < 8 * x.length + 6 ∧
    8 * x.length ≤ 6 * (sextets x).length := by
  obtain ⟨k, hk, heq⟩ := string_groups (show 0 < 6 by decide) (string 8 (x.map UInt8.toNat))
  have hlen := congrArg List.length heq
  rw [string_length, List.length_append, string_length, List.length_map, List.length_replicate]
    at hlen
  rw [sextets]
  omega

/-- The bytes are the groups of eight bits, as numbers. -/
theorem octets_toNat (v : List Nat) : (octets v).map UInt8.toNat = whole 8 (string 6 v) := by
  rw [octets, List.map_map]
  apply (List.map_congr_left fun u hu => ?_).trans (List.map_id _)
  exact (UInt8.toNat_ofNat' ..).trans (Nat.mod_eq_of_lt (whole_lt (by decide) _ u hu))

/-- The bits that two, four or none are missing from are those of complete
bytes. -/
theorem sextets_octets {v : List Nat} (hv : ∀ u ∈ v, u < 64) {p : Nat} (hp : p ≤ 2)
    (hlen : (v.length + p) % 4 = 0) (hlast : ∀ u ∈ v.getLast?, u % 4 ^ p = 0) :
    sextets (octets v) = v := by
  obtain ⟨r, hr, heq⟩ := string_whole (show 0 < 8 by decide) (string 6 v)
  have hcount := congrArg List.length heq
  rw [string_length, List.length_append, string_length] at hcount
  have hrlen : r.length = 2 * p := by omega
  have hzeros : r = List.replicate r.length false := by
    rcases List.eq_nil_or_concat' v with rfl | ⟨v', u, rfl⟩
    · rw [List.length_nil] at hcount
      rw [List.length_eq_zero_iff.mp (show r.length = 0 by omega)]
      rfl
    · have hu : u % 2 ^ (2 * p) = 0 := by
        rw [Nat.pow_mul]
        exact hlast u (by rw [List.getLast?_concat]; rfl)
      have hsplit : 6 = (6 - 2 * p) + 2 * p := by omega
      have hbits : bits 6 u = bits (6 - 2 * p) (u / 2 ^ (2 * p)) ++ bits (2 * p) u := by
        rw [← bits_add, ← hsplit]
      rw [string_append, string_cons, string_nil, List.append_nil, hbits, ← List.append_assoc,
        bits_eq_zeros hu] at heq
      rw [hrlen]
      exact (List.append_inj' heq (by rw [List.length_replicate, hrlen])).2.symm
  rw [hzeros] at heq
  rw [sextets, octets_toNat]
  exact groups_of_string (by decide) hv (by omega) heq

theorem rfc4648_length (x : List UInt8) : (rfc4648 x).length = 4 * ((x.length + 2) / 3) := by
  have hlen := sextets_length x
  rw [rfc4648, List.length_append, List.length_map, List.length_replicate]
  have hmod := Nat.mod_lt x.length (show 0 < 3 by decide)
  interval_cases h : x.length % 3 <;> omega

theorem sextetOf_base64Char : ∀ v < 64, base64Char v ∈ base64Chars ∧ sextetOf (base64Char v) = v := by
  decide +kernel

/-- What the decoder takes of a string of base64 characters followed by pads. -/
theorem takeWhile_pads {body : List UInt8} (hb : ∀ c ∈ body, c ∈ base64Chars) (p : Nat) :
    (body ++ List.replicate p padChar).takeWhile isBase64 = body := by
  rw [List.takeWhile_append_of_pos fun c hc => (idxOf_base64Chars c (hb c hc)).2.2]
  cases p with
  | zero => exact List.append_nil body
  | succ p =>
      rw [List.replicate_succ, List.takeWhile_cons_of_neg (by decide), List.append_nil]

section RoundTrip

variable (a : Fin 3 → UInt8) (a₄ : Fin 4 → UInt8)

theorem base64Encode_eq (x : List UInt8) : base64Encode a x = rfc4648 x := by
  rw [base64Encode, EncodeState.finish_foldl_push, List.nil_append]

theorem mem_sextets_chars (x : List UInt8) :
    ∀ c ∈ (sextets x).map base64Char, c ∈ base64Chars := by
  intro c hc
  obtain ⟨v, hv, rfl⟩ := List.mem_map.mp hc
  exact (sextetOf_base64Char v (groups_lt (by decide) _ v hv)).1

theorem base64Decode_rfc4648 {x : List UInt8} (hx : 4 * x.length < 3 * 2 ^ 31) :
    base64Decode a₄ (rfc4648 x) = x := by
  have hlen := rfc4648_length x
  have hsextets : ((sextets x).map base64Char).map sextetOf = sextets x := by
    rw [List.map_map]
    apply (List.map_congr_left fun v hv => ?_).trans (List.map_id _)
    exact (sextetOf_base64Char v (groups_lt (by decide) _ v hv)).2
  rw [base64Decode, decodeWith_eq _ _ (by omega), rfc4648, takeWhile_pads (mem_sextets_chars x),
    hsextets, octets_sextets]

theorem rfc4648_base64Decode {s : List UInt8} (hs : Canonical s) (hlen : s.length < 2 ^ 32) :
    rfc4648 (base64Decode a₄ s) = s := by
  obtain ⟨body, p, rfl, hp, hmod, hb, hlast⟩ := hs
  rw [List.length_append, List.length_replicate] at hmod
  have hv : ∀ u ∈ body.map sextetOf, u < 64 := by
    intro u hu
    obtain ⟨c, hc, rfl⟩ := List.mem_map.mp hu
    exact sextetOf_lt (hb c hc)
  have hlastv : ∀ u ∈ (body.map sextetOf).getLast?, u % 4 ^ p = 0 := by
    intro u hu
    rw [List.getLast?_map] at hu
    obtain ⟨c, hc, rfl⟩ := Option.map_eq_some_iff.mp hu
    exact hlast c hc
  have hsextets := sextets_octets hv hp (by rw [List.length_map]; exact hmod) hlastv
  have hbody : (body.map sextetOf).map base64Char = body := by
    rw [List.map_map]
    exact (List.map_congr_left fun c hc => (idxOf_base64Chars c (hb c hc)).2.1).trans
      (List.map_id _)
  have hpads : (3 - (octets (body.map sextetOf)).length % 3) % 3 = p := by
    have hcount := sextets_length (octets (body.map sextetOf))
    rw [hsextets, List.length_map] at hcount
    have hmod3 := Nat.mod_lt (octets (body.map sextetOf)).length (show 0 < 3 by decide)
    interval_cases h : (octets (body.map sextetOf)).length % 3 <;> omega
  rw [base64Decode, decodeWith_eq _ _ hlen, takeWhile_pads hb, rfc4648, hsextets, hbody, hpads]

/-- **The base64 round trips.**  For every byte array whose sizes fit, the
encoder computes the encoding of RFC 4648, and the decoder gives the array back;
and encoding what a canonical string decodes to gives that string back. -/
theorem base64_roundTrip :
    (∀ x : List UInt8, 4 * x.length < 3 * 2 ^ 31 →
      base64Encode a x = rfc4648 x ∧
      (base64Encode a x).length = 4 * ((x.length + 2) / 3) ∧
      (∃ body, base64Encode a x =
          body ++ List.replicate ((3 - x.length % 3) % 3) padChar ∧
        ∀ c ∈ body, c ∈ base64Chars) ∧
      base64Decode a₄ (base64Encode a x) = x) ∧
    ∀ s : List UInt8, Canonical s → s.length < 2 ^ 32 →
      base64Encode a (base64Decode a₄ s) = s := by
  refine ⟨fun x hx => ?_, fun s hs hlen => ?_⟩
  · rw [base64Encode_eq]
    exact ⟨rfl, rfc4648_length x, ⟨_, rfl, mem_sextets_chars x⟩, base64Decode_rfc4648 a₄ hx⟩
  · rw [base64Encode_eq]
    exact rfc4648_base64Decode a₄ hs hlen

end RoundTrip

/-- The bytes of `foob`, and the canonical string `Zm9vYg==`. -/
theorem base64_roundTrip_foob :
    base64Decode 255 (base64Encode 255 [102, 111, 111, 98]) = [102, 111, 111, 98] ∧
      base64Encode 255 (base64Decode 255 [90, 109, 57, 118, 89, 103, 61, 61]) =
        [90, 109, 57, 118, 89, 103, 61, 61] := by
  refine ⟨((base64_roundTrip 255 255).1 _ (by decide)).2.2.2, (base64_roundTrip 255 255).2 _ ?_ (by decide)⟩
  refine ⟨[90, 109, 57, 118, 89, 103], 2, rfl, by decide, rfl, ?_, ?_⟩
  · have hall : [90, 109, 57, 118, 89, 103].all (fun c => decide (c ∈ base64Chars)) = true := by
      decide +kernel
    exact fun c hc => of_decide_eq_true (List.all_eq_true.mp hall c hc)
  · intro c hc
    obtain rfl := Option.some.inj hc
    decide +kernel

end Libet
