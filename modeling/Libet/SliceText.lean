/-
Libet/SliceText.lean

The functions of `Slice` that read text: `eatWord`, `trimSpace` and `eatLine`.

Called over and over, `eatWord` takes the words off the front of a slice, one after
the other, and then empty slices.  `eatLine` takes a line, but not its end: called over
and over it does not get behind the first line (`eatWord_trimSpace`).  `isspace` is
handed a `char`, and is not defined for most negative ones.
-/
import Mathlib.Data.List.DropRight
import Libet.SliceSplit

namespace Libet

/-! ### Scanning -/

/-- `isspace(c)` for a signed `char` in the C locale: `EOF` is the one negative number
it is defined for. -/
def isSpace (c : UInt8) : Option Bool :=
  if c < 128 then some (c = 32 ∨ 9 ≤ c ∧ c ≤ 13)
  else if c = 255 then some false
  else none

/-- `while (p < pe_ && test(*p)) p++`, `left` turns before `p` comes to `pe_`. -/
def scan (test : UInt8 → Option Bool) (data : List UInt8) : Nat → Nat → Option Nat
  | 0, p => some p
  | left + 1, p =>
      match data[p]?.bind test with
      | some true => scan test data left (p + 1)
      | some false => some p
      | none => none

/-- `while (pb_ < pe_ && isspace(pe_[-1])) pe_--`, `left` turns before `pe_` comes to
`pb`; what is left of the size. -/
def scanBack (data : List UInt8) (pb : Nat) : Nat → Option Nat
  | 0 => some 0
  | left + 1 =>
      match data[pb + left]?.bind isSpace with
      | some true => scanBack data pb left
      | some false => some (left + 1)
      | none => none

namespace Slice

/-- `eatWord`: the word, and what is left of the slice. -/
def eatWord (s : Slice) (data : List UInt8) : Option (Slice × Slice) :=
  let pe := s.off + s.size
  (scan isSpace data s.size s.off).bind fun b =>
    (scan (fun c => (isSpace c).map (!·)) data (pe - b) b).map fun e =>
      (⟨b, e - b⟩, .ofEnds e pe)

/-- `eatLine`: the line, and what is left of the slice. -/
def eatLine (s : Slice) (data : List UInt8) : Option (Slice × Slice) :=
  (scan (fun c => some (c ≠ 10 ∧ c ≠ 13)) data s.size s.off).map fun p =>
    (⟨s.off, p - s.off⟩, .ofEnds p (s.off + s.size))

/-- `trimSpace`. -/
def trimSpace (s : Slice) (data : List UInt8) : Option Slice :=
  (scan isSpace data s.size s.off).bind fun pb =>
    (scanBack data pb (s.off + s.size - pb)).map fun size => ⟨pb, size⟩

/-- Calls of `eatWord`, one after the other: the words, and what is left. -/
def eatWords (data : List UInt8) : Nat → Slice → Option (List Slice × Slice)
  | 0, s => some ([], s)
  | n + 1, s =>
      (s.eatWord data).bind fun r => (eatWords data n r.2).map fun t => (r.1 :: t.1, t.2)

end Slice

/-! ### Words -/

/-- The byte is a space. -/
def isBlank (c : UInt8) : Bool := isSpace c = some true

/-- The words of a text: what stands between its spaces. -/
def words (text : List UInt8) : List (List UInt8) :=
  (text.splitOnP isBlank).filter (· ≠ [])

variable {data text : List UInt8} {s : Slice} {c : UInt8}

/-- `isspace` is defined for the text. -/
def SpaceDefined (text : List UInt8) : Prop := ∀ c ∈ text, (isSpace c).isSome

instance (text : List UInt8) : Decidable (SpaceDefined text) :=
  inferInstanceAs (Decidable (∀ c ∈ text, _))

theorem isSpace_of_defined (h : SpaceDefined text) (hc : c ∈ text) :
    isSpace c = some (isBlank c) := by
  obtain ⟨v, hv⟩ := Option.isSome_iff_exists.mp (h c hc)
  rw [isBlank, hv]
  cases v <;> rfl

theorem of_dropWhile_eq_cons {f : UInt8 → Bool} {l rest : List UInt8}
    (h : l.dropWhile f = c :: rest) : f c = false := by
  have hhead := List.head_dropWhile_not f (l := l) (by rw [h]; exact List.cons_ne_nil _ _)
  simpa only [h, List.head_cons] using hhead

theorem words_nil : words [] = [] := by decide

theorem words_cons_blank (h : isBlank c = true) : words (c :: text) = words text := by
  rw [words, List.splitOnP_cons_eq_if_modifyHead, if_pos h]
  exact List.filter_cons_of_neg (by decide)

/-- Spaces in front are nothing. -/
theorem words_dropWhile (text : List UInt8) : words (text.dropWhile isBlank) = words text := by
  induction text with
  | nil => rfl
  | cons c text ih =>
      rw [List.dropWhile_cons]
      split
      · rename_i h
        rw [ih, words_cons_blank h]
      · rfl

/-- A text that begins with a word. -/
theorem words_of_not_blank (h : isBlank c = false) :
    words (c :: text) = (c :: text).takeWhile (fun c => !isBlank c) ::
      words ((c :: text).dropWhile fun c => !isBlank c) := by
  have hne : (c :: text).takeWhile (fun c => !isBlank c) ≠ [] := by
    rw [List.takeWhile_cons_of_pos (by rw [h]; rfl)]
    exact List.cons_ne_nil _ _
  have hword : ∀ x ∈ (c :: text).takeWhile (fun c => !isBlank c), isBlank x = false := by
    intro x hx
    simpa using List.mem_takeWhile_imp hx
  conv_lhs => rw [← List.takeWhile_append_dropWhile (p := fun c => !isBlank c) (l := c :: text)]
  generalize (c :: text).takeWhile (fun c => !isBlank c) = word at *
  cases hrest : (c :: text).dropWhile fun c => !isBlank c with
  | nil =>
      rw [List.append_nil, words, List.splitOnP_eq_singleton hword, words_nil]
      exact List.filter_cons_of_pos (by simpa using hne)
  | cons x rest =>
      have hx : isBlank x = true := by simpa using of_dropWhile_eq_cons hrest
      rw [words, List.splitOnP_append_cons_of_forall_mem hword x hx, words_cons_blank hx]
      exact List.filter_cons_of_pos (by simpa using hne)

/-! ### What the scans find -/

theorem Slice.bytes_take {k : Nat} (hk : k ≤ s.size) (data : List UInt8) :
    Slice.bytes ⟨s.off, k⟩ data = (s.bytes data).take k := by
  rw [Slice.bytes, Slice.bytes, List.take_take, Nat.min_eq_left hk]

theorem Slice.bytes_drop {k : Nat} (data : List UInt8) :
    (Slice.ofEnds (s.off + k) (s.off + s.size)).bytes data = (s.bytes data).drop k := by
  rw [Slice.bytes, Slice.bytes, Slice.ofEnds, List.drop_take, List.drop_drop,
    Nat.add_sub_add_left]

theorem length_bytes (h : s.Within data) : (s.bytes data).length = s.size := by
  rw [Slice.Within] at h
  rw [Slice.bytes, List.length_take, List.length_drop]
  omega

section Scan

variable {test : UInt8 → Option Bool} {f : UInt8 → Bool}

/-- The scan stops behind the bytes that pass. -/
theorem scan_eq {left p : Nat} (h : p + left ≤ data.length)
    (htest : ∀ c ∈ (data.drop p).take left, test c = some (f c)) :
    scan test data left p = some (p + (((data.drop p).take left).takeWhile f).length) := by
  induction left generalizing p with
  | zero => rfl
  | succ left ih =>
      have hlt : p < data.length := by omega
      have hbytes : (data.drop p).take (left + 1) = data[p] :: (data.drop (p + 1)).take left := by
        rw [List.drop_eq_getElem_cons hlt, List.take_succ_cons]
      have hfirst := htest data[p] (by rw [hbytes]; exact List.mem_cons_self)
      have hrest := ih (show p + 1 + left ≤ data.length by omega)
        fun c hc => htest c (by rw [hbytes]; exact List.mem_cons_of_mem _ hc)
      rw [scan, List.getElem?_eq_getElem hlt, Option.bind_some, hfirst, hbytes]
      cases hf : f data[p] with
      | true =>
          rw [List.takeWhile_cons_of_pos hf, List.length_cons]
          exact hrest.trans (congrArg some (by omega))
      | false =>
          rw [List.takeWhile_cons_of_neg (by rw [hf]; decide)]
          rfl

/-- The two parts of the slice at the place where the scan stops. -/
theorem bytes_of_scan (f : UInt8 → Bool) (h : s.Within data) :
    Slice.bytes ⟨s.off, ((s.bytes data).takeWhile f).length⟩ data =
        (s.bytes data).takeWhile f ∧
      (Slice.ofEnds (s.off + ((s.bytes data).takeWhile f).length) (s.off + s.size)).bytes data =
        (s.bytes data).dropWhile f ∧
      ((s.bytes data).takeWhile f).length ≤ s.size := by
  have hle : ((s.bytes data).takeWhile f).length ≤ s.size := by
    rw [← length_bytes h]
    exact (List.takeWhile_prefix f).length_le
  refine ⟨?_, ?_, hle⟩
  · rw [Slice.bytes_take hle]
    exact (List.prefix_iff_eq_take.mp (List.takeWhile_prefix f)).symm
  · rw [Slice.bytes_drop]
    have hsplit := List.takeWhile_append_dropWhile (p := f) (l := s.bytes data)
    have hdrop : (((s.bytes data).takeWhile f) ++ (s.bytes data).dropWhile f).drop
        ((s.bytes data).takeWhile f).length = (s.bytes data).dropWhile f := List.drop_left
    rw [← hdrop, hsplit]

/-- A scan of a slice cuts it in two. -/
theorem scan_slice (h : s.Within data) (htest : ∀ c ∈ s.bytes data, test c = some (f c)) :
    ∃ k, scan test data s.size s.off = some (s.off + k) ∧ k ≤ s.size ∧
      Slice.bytes ⟨s.off, k⟩ data = (s.bytes data).takeWhile f ∧
      (Slice.ofEnds (s.off + k) (s.off + s.size)).bytes data = (s.bytes data).dropWhile f :=
  have hcut := bytes_of_scan f h
  ⟨_, scan_eq h htest, hcut.2.2, hcut.1, hcut.2.1⟩

end Scan

/-! ### The functions -/

namespace Slice

/-- What `eatWord` does: it takes the first word. -/
theorem eatWord_spec (h : s.Within data) (hdef : SpaceDefined (s.bytes data)) :
    ∃ word rest, s.eatWord data = some (word, rest) ∧
      word.bytes data = ((s.bytes data).dropWhile isBlank).takeWhile (fun c => !isBlank c) ∧
      rest.bytes data = ((s.bytes data).dropWhile isBlank).dropWhile (fun c => !isBlank c) ∧
      rest.Within data := by
  obtain ⟨j, hj, hjle, -, hskip⟩ := scan_slice h fun c hc => isSpace_of_defined hdef hc
  have hwithin : (Slice.ofEnds (s.off + j) (s.off + s.size)).Within data := by
    rw [Slice.Within] at h
    show s.off + j + (s.off + s.size - (s.off + j)) ≤ data.length
    omega
  have htest : ∀ c ∈ (Slice.ofEnds (s.off + j) (s.off + s.size)).bytes data,
      (fun c => (isSpace c).map (!·)) c = some (!isBlank c) := by
    intro c hc
    rw [hskip] at hc
    simp only [isSpace_of_defined hdef ((List.dropWhile_sublist _).mem hc), Option.map_some]
  obtain ⟨k, hk, hkle, hword, hrest⟩ := scan_slice hwithin htest
  rw [hskip] at hword hrest
  have hsize : s.off + j + (s.off + s.size - (s.off + j)) = s.off + s.size := by omega
  refine ⟨⟨s.off + j, k⟩, .ofEnds (s.off + j + k) (s.off + s.size), ?_, hword, ?_, ?_⟩
  · have hk' : scan (fun c => (isSpace c).map (!·)) data (s.off + s.size - (s.off + j))
        (s.off + j) = some (s.off + j + k) := hk
    rw [eatWord, hj, Option.bind_some, hk', Option.map_some, Nat.add_sub_cancel_left]
  · have hrest' : (Slice.ofEnds (s.off + j + k)
        (s.off + j + (s.off + s.size - (s.off + j)))).bytes data = _ := hrest
    rwa [hsize] at hrest'
  · rw [Slice.Within] at h
    show s.off + j + k + (s.off + s.size - (s.off + j + k)) ≤ data.length
    have : k ≤ s.off + s.size - (s.off + j) := hkle
    omega

end Slice

/-- **One call of `eatWord`** takes the first word off the words, or finds none. -/
theorem eatWord_words (h : s.Within data) (hdef : SpaceDefined (s.bytes data)) :
    ∃ word rest, s.eatWord data = some (word, rest) ∧ rest.Within data ∧
      SpaceDefined (rest.bytes data) ∧
      word.bytes data = ((words (s.bytes data)).headD []) ∧
      words (rest.bytes data) = (words (s.bytes data)).tail := by
  obtain ⟨word, rest, heat, hword, hrest, hwithin⟩ := Slice.eatWord_spec h hdef
  refine ⟨word, rest, heat, hwithin, fun c hc => ?_, ?_⟩
  · rw [hrest] at hc
    exact hdef c ((List.dropWhile_sublist _).mem ((List.dropWhile_sublist _).mem hc))
  · rw [hword, hrest, ← words_dropWhile (s.bytes data)]
    cases htext : (s.bytes data).dropWhile isBlank with
    | nil =>
        rw [words_nil]
        exact ⟨rfl, words_nil⟩
    | cons c text =>
        rw [words_of_not_blank (of_dropWhile_eq_cons htext)]
        exact ⟨rfl, rfl⟩

/-- However often `eatWord` is called: the first calls return the words of the text in
order, and each call behind them an empty slice. -/
theorem eatWords_eq (h : s.Within data) (hdef : SpaceDefined (s.bytes data)) (n : Nat) :
    ∃ ts rest, Slice.eatWords data n s = some (ts, rest) ∧
      ts.map (·.bytes data) =
        (words (s.bytes data)).take n ++ List.replicate (n - (words (s.bytes data)).length) [] ∧
      words (rest.bytes data) = (words (s.bytes data)).drop n := by
  induction n generalizing s with
  | zero => exact ⟨[], s, rfl, by simp, rfl⟩
  | succ n ih =>
      obtain ⟨word, rest, heat, hwithin, hdef', hword, hwords⟩ := eatWord_words h hdef
      obtain ⟨ts, rest', hrun, hts, hrest'⟩ := ih hwithin hdef'
      refine ⟨word :: ts, rest', ?_, ?_, ?_⟩
      · rw [Slice.eatWords, heat, Option.bind_some, hrun, Option.map_some]
      · rw [List.map_cons, hts, hword, hwords]
        cases words (s.bytes data) with
        | nil => simp [List.replicate_succ]
        | cons w ws => simp
      · rw [hrest', hwords, List.drop_tail]

/-- The scan from the back. -/
theorem scanBack_eq {pb left : Nat} (h : pb + left ≤ data.length)
    (hdef : SpaceDefined ((data.drop pb).take left)) :
    scanBack data pb left = some (((data.drop pb).take left).rdropWhile isBlank).length := by
  induction left with
  | zero => rfl
  | succ left ih =>
      have hlt : pb + left < data.length := by omega
      have hbytes : (data.drop pb).take (left + 1) =
          (data.drop pb).take left ++ [data[pb + left]] := by
        rw [List.take_add_one, List.getElem?_drop, List.getElem?_eq_getElem hlt]
        rfl
      have hlast := isSpace_of_defined hdef
        (show data[pb + left] ∈ _ by rw [hbytes]; exact List.mem_append_right _ List.mem_cons_self)
      rw [scanBack, List.getElem?_eq_getElem hlt, Option.bind_some, hlast, hbytes]
      cases hblank : isBlank data[pb + left] with
      | true =>
          rw [List.rdropWhile_concat_pos _ _ _ hblank]
          exact ih (by omega) fun c hc => hdef c (by rw [hbytes]; exact List.mem_append_left _ hc)
      | false =>
          rw [List.rdropWhile_concat_neg _ _ _ (by rw [hblank]; decide), List.length_append,
            List.length_take, List.length_drop, Nat.min_eq_left (by omega)]
          rfl

/-- Spaces behind are nothing. -/
theorem words_rdropWhile (text : List UInt8) : words (text.rdropWhile isBlank) = words text := by
  induction text using List.reverseRecOn with
  | nil => rfl
  | append_singleton text c ih =>
      cases hblank : isBlank c with
      | true =>
          rw [List.rdropWhile_concat_pos _ _ _ hblank, ih, words, words,
            List.splitOnP_append_cons text [] hblank, List.filter_append]
          exact (List.append_nil _).symm
      | false => rw [List.rdropWhile_concat_neg _ _ _ (by rw [hblank]; decide)]

/-- What `trimSpace` leaves: the same words, with no space around them. -/
theorem trimSpace_spec (h : s.Within data) (hdef : SpaceDefined (s.bytes data)) :
    ∃ t, s.trimSpace data = some t ∧ t.Within data ∧ SpaceDefined (t.bytes data) ∧
      t.bytes data = ((s.bytes data).dropWhile isBlank).rdropWhile isBlank := by
  obtain ⟨j, hj, hjle, -, hskip⟩ := scan_slice h fun c hc => isSpace_of_defined hdef hc
  have hsize : s.off + s.size - (s.off + j) = s.size - j := Nat.add_sub_add_left ..
  have hskip' : (data.drop (s.off + j)).take (s.size - j) = (s.bytes data).dropWhile isBlank := by
    rw [← hskip, Slice.bytes, Slice.ofEnds, hsize]
  have hdef' : SpaceDefined ((s.bytes data).dropWhile isBlank) :=
    fun c hc => hdef c ((List.dropWhile_sublist _).mem hc)
  have hback := @scanBack_eq data (s.off + j) (s.size - j)
    (by rw [Slice.Within] at h; omega) (by rw [hskip']; exact hdef')
  rw [hskip'] at hback
  have hstart := List.rdropWhile_prefix isBlank ((s.bytes data).dropWhile isBlank)
  have hle : (((s.bytes data).dropWhile isBlank).rdropWhile isBlank).length ≤ s.size - j := by
    refine hstart.length_le.trans ?_
    rw [← hskip', List.length_take]
    exact Nat.min_le_left _ _
  have hbytes : Slice.bytes
      ⟨s.off + j, (((s.bytes data).dropWhile isBlank).rdropWhile isBlank).length⟩ data =
        ((s.bytes data).dropWhile isBlank).rdropWhile isBlank := by
    rw [Slice.bytes, ← Nat.min_eq_left hle, ← List.take_take, hskip']
    exact (List.prefix_iff_eq_take.mp hstart).symm
  refine ⟨⟨s.off + j, _⟩, ?_, ?_, ?_, hbytes⟩
  · rw [Slice.trimSpace, hj, Option.bind_some, hsize, hback, Option.map_some]
  · rw [Slice.Within] at h ⊢
    dsimp only
    omega
  · rw [hbytes]
    exact fun c hc => hdef' c (hstart.mem hc)

/-- No space stands at an end of what `trimSpace` leaves. -/
theorem not_blank_of_trimmed
    (hc : ((text.dropWhile isBlank).rdropWhile isBlank).head? = some c ∨
      ((text.dropWhile isBlank).rdropWhile isBlank).getLast? = some c) : isBlank c = false := by
  rcases hc with hc | hc
  · obtain ⟨rest, hrest⟩ := List.head?_eq_some_iff.mp hc
    obtain ⟨tail, htail⟩ := List.rdropWhile_prefix isBlank (text.dropWhile isBlank)
    rw [hrest, List.cons_append] at htail
    exact of_dropWhile_eq_cons htail.symm
  · have hne : (text.dropWhile isBlank).rdropWhile isBlank ≠ [] := by
      intro hnil
      rw [hnil] at hc
      cases hc
    obtain rfl := Option.some.inj (hc.symm.trans (List.getLast?_eq_some_getLast hne))
    exact Bool.eq_false_iff.mpr (List.rdropWhile_last_not isBlank _ hne)

/-! ### Lines -/

/-- The byte is not the end of a line. -/
def inLine (c : UInt8) : Bool := c ≠ 10 ∧ c ≠ 13

/-- A slice that is at the end of a line stays there: after one call `eatLine` returns
empty slices, and the rest is what it was. -/
theorem eatLine_again (h : s.Within data) :
    ∃ line rest, s.eatLine data = some (line, rest) ∧
      line.bytes data = (s.bytes data).takeWhile inLine ∧
      rest.bytes data = (s.bytes data).dropWhile inLine ∧
      ∃ none, rest.eatLine data = some (none, rest) ∧ none.size = 0 := by
  obtain ⟨k, hk, hkle, hline, hrest⟩ := scan_slice (f := inLine) h fun c _ => rfl
  refine ⟨⟨s.off, k⟩, .ofEnds (s.off + k) (s.off + s.size), ?_, hline, hrest, ⟨s.off + k, 0⟩, ?_,
    rfl⟩
  · have hk' : scan (fun c => some (c ≠ 10 ∧ c ≠ 13)) data s.size s.off = some (s.off + k) := hk
    rw [Slice.eatLine, hk', Option.map_some, Nat.add_sub_cancel_left]
  · -- the rest begins with the end of a line, if with anything
    have hnone : ((Slice.ofEnds (s.off + k) (s.off + s.size)).bytes data).takeWhile inLine = [] := by
      rw [hrest]
      cases htext : (s.bytes data).dropWhile inLine with
      | nil => rfl
      | cons c text =>
          rw [List.takeWhile_cons_of_neg]
          rw [of_dropWhile_eq_cons htext]
          decide
    have hsize : s.off + k + (s.off + s.size - (s.off + k)) = s.off + s.size := by omega
    have hwithin : (Slice.ofEnds (s.off + k) (s.off + s.size)).Within data :=
      hsize.trans_le h
    have hscan := scan_eq (f := inLine) hwithin fun c _ => rfl
    have hscan' : scan (fun c => some (c ≠ 10 ∧ c ≠ 13)) data
        (Slice.ofEnds (s.off + k) (s.off + s.size)).size (s.off + k) = some (s.off + k + 0) :=
      hscan.trans (congrArg (fun l => some (s.off + k + List.length l)) hnone)
    rw [Slice.eatLine]
    have hoff : (Slice.ofEnds (s.off + k) (s.off + s.size)).off = s.off + k := rfl
    rw [hoff, hscan', Option.map_some, Nat.add_zero, Nat.sub_self]
    refine congrArg some (Prod.ext rfl ?_)
    show Slice.ofEnds (s.off + k) (s.off + k + (s.off + s.size - (s.off + k))) = _
    rw [hsize]

/-! ### Main result -/

/-- **The words and the first line of a slice.**  However often `eatWord` is called on a
slice, the first calls return its words in order, and each call behind them an empty
slice.  `trimSpace` first changes nothing about this, and leaves no space at an end.
`eatLine` returns what stands in front of the first end of a line and leaves the rest,
end included; called again, it returns an empty slice and leaves the same. -/
theorem eatWord_trimSpace (h : s.Within data) (hdef : SpaceDefined (s.bytes data)) :
    (∃ t, s.trimSpace data = some t ∧
      (∀ c, (t.bytes data).head? = some c ∨ (t.bytes data).getLast? = some c →
        isBlank c = false) ∧
      ∀ u ∈ [s, t], ∀ n, ∃ ts rest, Slice.eatWords data n u = some (ts, rest) ∧
        ts.map (·.bytes data) =
          (words (s.bytes data)).take n ++ List.replicate (n - (words (s.bytes data)).length) [] ∧
        words (rest.bytes data) = (words (s.bytes data)).drop n) ∧
    ∃ line rest, s.eatLine data = some (line, rest) ∧
      line.bytes data = (s.bytes data).takeWhile inLine ∧
      rest.bytes data = (s.bytes data).dropWhile inLine ∧
      ∃ none, rest.eatLine data = some (none, rest) ∧ none.size = 0 := by
  obtain ⟨t, ht, hwithin, hdef', hbytes⟩ := trimSpace_spec h hdef
  have hwords : words (t.bytes data) = words (s.bytes data) := by
    rw [hbytes, words_rdropWhile, words_dropWhile]
  refine ⟨⟨t, ht, fun c hc => ?_, fun u hu n => ?_⟩, eatLine_again h⟩
  · rw [hbytes] at hc
    exact not_blank_of_trimmed hc
  · rcases List.mem_pair.mp hu with rfl | rfl
    · exact eatWords_eq h hdef n
    · rw [← hwords]
      exact eatWords_eq hwithin hdef' n

/-- The line `GET  / x`, read four times. -/
theorem eatWord_trimSpace_get : ∃ ts rest,
    Slice.eatWords [32, 71, 69, 84, 32, 32, 47, 32, 120, 10] 4 ⟨0, 10⟩ = some (ts, rest) ∧
      ts.map (·.bytes [32, 71, 69, 84, 32, 32, 47, 32, 120, 10]) =
        [[71, 69, 84], [47], [120], []] := by
  obtain ⟨⟨t, -, -, hwords⟩, -⟩ := @eatWord_trimSpace [32, 71, 69, 84, 32, 32, 47, 32, 120, 10] ⟨0, 10⟩
    (Nat.le_refl 10) (by decide +kernel)
  obtain ⟨ts, rest, hrun, hts, -⟩ := hwords ⟨0, 10⟩ List.mem_cons_self 4
  exact ⟨ts, rest, hrun, hts.trans (by decide +kernel)⟩

end Libet
