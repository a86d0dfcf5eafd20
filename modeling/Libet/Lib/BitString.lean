/-
Libet/Lib/BitString.lean

Bit strings, most significant bit first, and the regrouping of words of one
width into words of another.

`bits w v` writes the `w` low bits of a number, `string w vs` the bits of a list
of words, and `value` reads a bit string as a number.  A bit string is cut into
words of `w` bits by `groups`, which fills the last one up with zeros, or by
`whole`, which leaves an incomplete last one out.

Writing and cutting are inverse to one another as far as the lengths allow:
`string_groups` and `groups_of_string` for `groups`, `string_whole` and
`whole_string` for `whole`.
-/
import Mathlib.Data.Nat.Bitwise

namespace BitString

/-- The `w` low bits of `v`. -/
def bits : Nat → Nat → List Bool
  | 0, _ => []
  | w + 1, v => v.testBit w :: bits w v

/-- The number a bit string stands for. -/
def value : List Bool → Nat
  | [] => 0
  | b :: l => b.toNat * 2 ^ l.length + value l

/-- The bits of a list of words. -/
def string (w : Nat) (vs : List Nat) : List Bool := vs.flatMap (bits w)

/-- The words of `w` bits, the last one filled up with zeros. -/
def groups (w : Nat) : List Bool → List Nat
  | [] => []
  | b :: l =>
      value (((b :: l) ++ List.replicate (w - 1) false).take w) :: groups w (l.drop (w - 1))
termination_by l => l.length
decreasing_by
  rw [List.length_drop, List.length_cons]
  omega

/-- The complete words of `w` bits. -/
def whole (w : Nat) : List Bool → List Nat
  | [] => []
  | b :: l =>
      if l.length < w - 1 then []
      else value ((b :: l).take w) :: whole w (l.drop (w - 1))
termination_by l => l.length
decreasing_by
  rw [List.length_drop, List.length_cons]
  omega

variable {w : Nat}

/-! ### Words -/

@[simp] theorem bits_length (w v : Nat) : (bits w v).length = w := by
  induction w with
  | zero => rfl
  | succ w ih => rw [bits, List.length_cons, ih]

/-- The bits above the `w` low ones come first. -/
theorem bits_add (k w v : Nat) : bits (k + w) v = bits k (v / 2 ^ w) ++ bits w v := by
  induction k with
  | zero => rw [Nat.zero_add, bits, List.nil_append]
  | succ k ih =>
      rw [Nat.add_right_comm, bits, bits, ih, List.cons_append, Nat.testBit_div_two_pow]

theorem bits_congr {v v' : Nat} (h : ∀ i < w, v.testBit i = v'.testBit i) :
    bits w v = bits w v' := by
  induction w with
  | zero => rfl
  | succ w ih =>
      rw [bits, bits, h w (Nat.lt_succ_self w), ih fun i hi => h i (Nat.lt_succ_of_lt hi)]

theorem bits_zero (w : Nat) : bits w 0 = List.replicate w false := by
  induction w with
  | zero => rfl
  | succ w ih => rw [bits, ih, Nat.zero_testBit, List.replicate_succ]

theorem bits_eq_zeros {v : Nat} (h : v % 2 ^ w = 0) : bits w v = List.replicate w false := by
  rw [← bits_zero]
  apply bits_congr
  intro i hi
  have hmod := Nat.testBit_mod_two_pow v w i
  rw [h, decide_eq_true hi, Bool.true_and] at hmod
  exact hmod.symm

theorem value_append (l m : List Bool) : value (l ++ m) = value l * 2 ^ m.length + value m := by
  induction l with
  | nil => rw [List.nil_append, value, Nat.zero_mul, Nat.zero_add]
  | cons b l ih =>
      rw [List.cons_append, value, value, ih, List.length_append, Nat.pow_add, Nat.add_mul,
        Nat.mul_assoc, Nat.add_assoc]

@[simp] theorem value_replicate_false (n : Nat) : value (List.replicate n false) = 0 := by
  induction n with
  | zero => rfl
  | succ n ih => rw [List.replicate_succ, value, ih, Bool.toNat_false, Nat.zero_mul]

@[simp] theorem value_bits (w v : Nat) : value (bits w v) = v % 2 ^ w := by
  induction w with
  | zero => rw [bits, value, Nat.pow_zero, Nat.mod_one]
  | succ w ih =>
      rw [bits, value, ih, bits_length, Nat.toNat_testBit, Nat.mod_pow_succ, Nat.mul_comm,
        Nat.add_comm]

theorem value_lt (l : List Bool) : value l < 2 ^ l.length := by
  induction l with
  | nil => exact Nat.one_pos
  | cons b l ih =>
      have hb := Bool.toNat_le b
      have hmul := Nat.mul_le_mul_right (2 ^ l.length) hb
      rw [value, List.length_cons, Nat.pow_succ]
      omega

/-- A bit string is the word of its value. -/
theorem bits_value (l : List Bool) : bits l.length (value l) = l := by
  induction l with
  | nil => rfl
  | cons b l ih =>
      have hlt := value_lt l
      have hbit : (value (b :: l)).testBit l.length = b := by
        rw [value, Nat.mul_comm, Nat.testBit_two_pow_mul_add _ hlt]
        cases b <;> simp
      have hlow : bits l.length (value (b :: l)) = bits l.length (value l) := by
        apply bits_congr
        intro i hi
        rw [value, Nat.mul_comm, Nat.testBit_two_pow_mul_add _ hlt, if_pos hi]
      rw [List.length_cons, bits, hbit, hlow, ih]

/-! ### Strings of words -/

@[simp] theorem string_nil (w : Nat) : string w [] = [] := rfl

@[simp] theorem string_cons (w v : Nat) (vs : List Nat) :
    string w (v :: vs) = bits w v ++ string w vs := rfl

theorem string_append (w : Nat) (us vs : List Nat) :
    string w (us ++ vs) = string w us ++ string w vs := List.flatMap_append

@[simp] theorem string_length (w : Nat) (vs : List Nat) :
    (string w vs).length = w * vs.length := by
  induction vs with
  | nil => rfl
  | cons v vs ih =>
      rw [string_cons, List.length_append, bits_length, ih, List.length_cons, Nat.mul_succ,
        Nat.add_comm]

/-! ### Cutting with a filled up last word -/

@[simp] theorem groups_nil (w : Nat) : groups w [] = [] := by
  rw [groups]

/-- A full word in front. -/
theorem groups_append (hw : 0 < w) {l : List Bool} (hl : l.length = w) (m : List Bool) :
    groups w (l ++ m) = value l :: groups w m := by
  cases l with
  | nil => rw [List.length_nil] at hl; omega
  | cons b l =>
      have hlen : l.length = w - 1 := by rw [List.length_cons] at hl; omega
      rw [List.cons_append, groups, ← List.cons_append, List.append_assoc,
        List.take_left' hl, List.drop_left' hlen]

/-- A last word, filled up with zeros. -/
theorem groups_last {l : List Bool} (h0 : l ≠ []) (hw : l.length ≤ w) :
    groups w l = [value l * 2 ^ (w - l.length)] := by
  cases l with
  | nil => exact absurd rfl h0
  | cons b l =>
      rw [List.length_cons] at hw ⊢
      have hfill : w - 1 = (w - (l.length + 1)) + l.length := by omega
      have htake : ((b :: l) ++ List.replicate (w - 1) false).take w =
          (b :: l) ++ List.replicate (w - (l.length + 1)) false := by
        rw [hfill, ← List.replicate_append_replicate, ← List.append_assoc]
        apply List.take_left'
        rw [List.length_append, List.length_cons, List.length_replicate]
        omega
      rw [groups, htake, value_append, value_replicate_false, List.length_replicate,
        Nat.add_zero, List.drop_eq_nil_of_le (by omega), groups_nil]

/-- Induction along the words of a bit string: a full word in front, or a last
one that is not full. -/
theorem words_induction {motive : List Bool → Prop} (hw : 0 < w)
    (last : ∀ l, l.length < w → motive l)
    (word : ∀ l m, l.length = w → motive m → motive (l ++ m)) (l : List Bool) : motive l := by
  induction hn : l.length using Nat.strong_induction_on generalizing l with
  | _ n ih =>
      rcases Nat.lt_or_ge l.length w with hlt | hge
      · exact last l hlt
      · rw [← List.take_append_drop w l]
        apply word _ _ (List.length_take_of_le hge)
        apply ih (l.drop w).length _ _ rfl
        rw [List.length_drop]
        omega

theorem groups_lt (hw : 0 < w) (l : List Bool) : ∀ v ∈ groups w l, v < 2 ^ w := by
  induction l using words_induction hw with
  | last l hl =>
      by_cases h0 : l = []
      · rw [h0, groups_nil]
        exact fun v hv => absurd hv List.not_mem_nil
      · intro v hv
        rw [groups_last h0 (Nat.le_of_lt hl), List.mem_singleton] at hv
        have hpow : 2 ^ w = 2 ^ l.length * 2 ^ (w - l.length) := by
          rw [← Nat.pow_add]
          congr 1
          omega
        rw [hv, hpow]
        exact Nat.mul_lt_mul_of_pos_right (value_lt l) (Nat.two_pow_pos _)
  | word l m hl ih =>
      intro v hv
      rw [groups_append hw hl, List.mem_cons] at hv
      rcases hv with rfl | hv
      · have hlt := value_lt l
        rwa [hl] at hlt
      · exact ih v hv

/-- What `groups` writes are the bits it was given, filled up. -/
theorem string_groups (hw : 0 < w) (l : List Bool) :
    ∃ k < w, string w (groups w l) = l ++ List.replicate k false := by
  induction l using words_induction hw with
  | last l hl =>
      by_cases h0 : l = []
      · exact ⟨0, hw, by rw [h0, groups_nil]; rfl⟩
      · have hpos : 0 < l.length := List.length_pos_iff.mpr h0
        refine ⟨w - l.length, by omega, ?_⟩
        have hfill : (l ++ List.replicate (w - l.length) false).length = w := by
          rw [List.length_append, List.length_replicate]
          omega
        have hval : value l * 2 ^ (w - l.length) =
            value (l ++ List.replicate (w - l.length) false) := by
          rw [value_append, value_replicate_false, List.length_replicate, Nat.add_zero]
        have hbits := bits_value (l ++ List.replicate (w - l.length) false)
        rw [hfill] at hbits
        rw [groups_last h0 (Nat.le_of_lt hl), string_cons, string_nil, List.append_nil, hval,
          hbits]
  | word l m hl ih =>
      obtain ⟨k, hk, heq⟩ := ih
      refine ⟨k, hk, ?_⟩
      have hbits := bits_value l
      rw [hl] at hbits
      rw [groups_append hw hl, string_cons, heq, hbits, List.append_assoc]

/-- `groups` reads words from whose bits only zeros of the last one are
missing. -/
theorem groups_of_string (hw : 0 < w) {vs : List Nat} (hv : ∀ v ∈ vs, v < 2 ^ w)
    {l : List Bool} {k : Nat} (hk : k < w) (h : string w vs = l ++ List.replicate k false) :
    groups w l = vs := by
  induction vs generalizing l with
  | nil =>
      rw [string_nil] at h
      rw [(List.append_eq_nil_iff.mp h.symm).1, groups_nil]
  | cons v vs ih =>
      have hlt : v < 2 ^ w := hv v List.mem_cons_self
      have hvs : ∀ u ∈ vs, u < 2 ^ w := fun u hu => hv u (List.mem_cons_of_mem v hu)
      have hlen := congrArg List.length h
      rw [string_cons] at h
      rw [string_length, List.length_cons, List.length_append, List.length_replicate,
        Nat.mul_succ] at hlen
      rcases Nat.lt_or_ge l.length w with hl | hl
      · -- the last word
        have hnil : vs = [] := by
          cases vs with
          | nil => rfl
          | cons u us => rw [List.length_cons, Nat.mul_succ] at hlen; omega
        subst hnil
        rw [string_nil, List.append_nil] at h
        rw [List.length_nil, Nat.mul_zero] at hlen
        have h0 : l ≠ [] := by rintro rfl; rw [List.length_nil] at hlen; omega
        have hkw : w - l.length = k := by omega
        have hval := congrArg value h
        rw [value_bits, Nat.mod_eq_of_lt hlt, value_append, value_replicate_false,
          List.length_replicate, Nat.add_zero] at hval
        rw [groups_last h0 (by omega), hkw, ← hval]
      · -- a full word in front
        obtain ⟨hfront, hrest⟩ : l.take w = bits w v ∧
            string w vs = l.drop w ++ List.replicate k false := by
          rw [← List.take_append_drop w l, List.append_assoc] at h
          have hinj := List.append_inj h (by rw [bits_length, List.length_take_of_le hl])
          exact ⟨hinj.1.symm, hinj.2⟩
        rw [← List.take_append_drop w l, groups_append hw (List.length_take_of_le hl),
          ih hvs hrest, hfront, value_bits, Nat.mod_eq_of_lt hlt]

/-! ### Cutting into complete words -/

theorem whole_short {l : List Bool} (h : l.length < w) : whole w l = [] := by
  cases l with
  | nil => rw [whole]
  | cons b l =>
      rw [List.length_cons] at h
      rw [whole, if_pos (by omega)]

theorem whole_append (hw : 0 < w) {l : List Bool} (hl : l.length = w) (m : List Bool) :
    whole w (l ++ m) = value l :: whole w m := by
  cases l with
  | nil => rw [List.length_nil] at hl; omega
  | cons b l =>
      have hlen : l.length = w - 1 := by rw [List.length_cons] at hl; omega
      have hge : ¬ (l ++ m).length < w - 1 := by rw [List.length_append]; omega
      rw [List.cons_append, whole, if_neg hge, ← List.cons_append, List.take_left' hl,
        List.drop_left' hlen]

theorem whole_lt (hw : 0 < w) (l : List Bool) : ∀ v ∈ whole w l, v < 2 ^ w := by
  induction l using words_induction hw with
  | last l hl =>
      rw [whole_short hl]
      exact fun v hv => absurd hv List.not_mem_nil
  | word l m hl ih =>
      intro v hv
      rw [whole_append hw hl, List.mem_cons] at hv
      rcases hv with rfl | hv
      · have hlt := value_lt l
        rwa [hl] at hlt
      · exact ih v hv

/-- `whole` reads the words, and not what is left behind them. -/
theorem whole_string (hw : 0 < w) {vs : List Nat} (hv : ∀ v ∈ vs, v < 2 ^ w)
    {r : List Bool} (hr : r.length < w) : whole w (string w vs ++ r) = vs := by
  induction vs with
  | nil => exact whole_short hr
  | cons v vs ih =>
      have hlt : v < 2 ^ w := hv v List.mem_cons_self
      rw [string_cons, List.append_assoc, whole_append hw (bits_length w v), value_bits,
        Nat.mod_eq_of_lt hlt, ih fun u hu => hv u (List.mem_cons_of_mem v hu)]

/-- What `whole` writes are the bits it was given, less the ones behind the last
complete word. -/
theorem string_whole (hw : 0 < w) (l : List Bool) :
    ∃ r : List Bool, r.length < w ∧ l = string w (whole w l) ++ r := by
  induction l using words_induction hw with
  | last l hl => exact ⟨l, hl, by rw [whole_short hl]; rfl⟩
  | word l m hl ih =>
      obtain ⟨r, hr, heq⟩ := ih
      refine ⟨r, hr, ?_⟩
      have hbits := bits_value l
      rw [hl] at hbits
      rw [whole_append hw hl, string_cons, hbits, List.append_assoc, ← heq]

/-- The complete words, counted. -/
theorem whole_length (hw : 0 < w) (l : List Bool) : (whole w l).length = l.length / w := by
  obtain ⟨r, hr, heq⟩ := string_whole hw l
  have hlen := congrArg List.length heq
  rw [List.length_append, string_length] at hlen
  rw [hlen, Nat.mul_add_div hw, Nat.div_eq_of_lt hr, Nat.add_zero]

/-- The bits of the complete words come first. -/
theorem string_whole_take (hw : 0 < w) (l : List Bool) :
    string w (whole w l) = l.take (w * (l.length / w)) := by
  obtain ⟨r, -, heq⟩ := string_whole hw l
  have hlen := string_length w (whole w l)
  rw [whole_length hw] at hlen
  conv_rhs => rw [heq]
  rw [List.take_left' (by rw [← heq]; exact hlen)]

end BitString
