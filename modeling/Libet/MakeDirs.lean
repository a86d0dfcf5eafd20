/-
Libet/MakeDirs.lean

`util::MakeSureDirExist`: every directory on a path is created.

The path is copied into `tmpDir`, an array of 1024 characters, a separator is
put behind it if there is none, and a walk from separator to separator hands the
part in front of it to `_access` and `_mkdir`.  Lengths up to 1024 are accepted,
but the copy needs one character more for its terminator, and so does the
separator, which takes the terminator's place: `staysInside_iff` says for which
paths every index lies inside `tmpDir`.

Indices are checked (`Cells`).  The directories are the operating system's; what
`_access` and `_mkdir` answer is any function of a state of theirs.
-/
import Libet.Lib.Cells
import Mathlib.Data.List.TakeWhile

namespace Libet

/-- The configurations of `libet.vcxproj`; `debug` defines `_DEBUG`. -/
inductive Build
  | debug
  | release
  deriving DecidableEq, Repr

/-- `char tmpDir[1024]`. -/
abbrev TmpDir := Cells 1024 UInt8

/-- `'\\'`. -/
def backslash : UInt8 := 92

/-- `c == '\\' || c == '/'`. -/
def isSeparator (c : UInt8) : Bool := c == backslash || c == 47

/-- `_access` with mode 0, and `_mkdir`: what they return for a path, and the
directories afterwards. -/
structure FileSystem (σ : Type) where
  access : σ → List UInt8 → Int × σ
  mkdir : σ → List UInt8 → Int × σ

/-- Every directory is there. -/
def FileSystem.complete : FileSystem Unit where
  access _ _ := (0, ())
  mkdir _ _ := (0, ())

/-! ### `strcpy_s` -/

/-- The debug library fills what is left of the `size` characters with `-2`. -/
def fillString (build : Build) (a : TmpDir) (size used : Nat) : Except Nat TmpDir :=
  match build with
  | .debug => a.write used (List.replicate (size - used) 0xFE)
  | .release => .ok a

/-- `strcpy_s(tmpDir, size, src)`: the characters of `src` and a terminator.  A
`src` that does not fit into `size` leaves the empty string. -/
def strcpyS (build : Build) (a : TmpDir) (size : Nat) (src : List UInt8) : Except Nat TmpDir := do
  let a ← a.write 0 ((src ++ [0]).take size)
  if src.length < size then
    fillString build a size (src.length + 1)
  else
    let a ← a.set 0 0
    fillString build a size 1

/-! ### The walk -/

/-- How the walk ends: the value returned, where `p` is, and what it leaves. -/
structure Walked (σ : Type) where
  ret : Bool
  p : Nat
  tmpDir : TmpDir
  dirs : σ

section Walk

variable {σ : Type} (build : Build) (fs : FileSystem σ) (head : Nat)

/-- At a separator: the directory in front of it is looked for and created.
The separator gets its place back, unless the function returns `false`. -/
def visit (a : TmpDir) (p : Nat) (s : σ) : Except Nat (Bool × TmpDir × σ) := do
  let a ← a.set p 0
  let found := fs.access s (← a.upTo 0 head)
  if found.1 ≠ 0 then
    let made := fs.mkdir found.2 (← a.upTo 0 head)
    if made.1 ≠ 0 ∧ build = .debug then return (false, a, made.2)
    return (true, ← a.set p backslash, made.2)
  return (true, ← a.set p backslash, found.2)

/-- `while (*p)`. -/
def walk (a : TmpDir) (p : Nat) (s : σ) : Except Nat (Walked σ) :=
  match _h : a.get p with
  | .error i => .error i
  | .ok c =>
      if c = 0 then .ok ⟨true, p, a, s⟩
      else if isSeparator c then
        match visit build fs head a p s with
        | .error i => .error i
        | .ok (false, a, s) => .ok ⟨false, p, a, s⟩
        | .ok (true, a, s) => walk a (p + 1) s
      else walk a (p + 1) s
termination_by 1024 - p
decreasing_by all_goals exact Nat.sub_succ_lt_self _ _ (Cells.lt_of_get _h)

end Walk

/-- `MakeSureDirExist(const char*, size_t)` for the string `dir`, whose terminator
is not part of it.  `none` is the `false` for a length that is not accepted. -/
def makeSureDirExist {σ : Type} (build : Build) (fs : FileSystem σ) (s : σ) (dir : List UInt8)
    (len : Nat) : Except Nat (Option (Walked σ)) := do
  if len < 1 ∨ 1024 < len then return none
  let a ← strcpyS build (fun _ => 0) (len + 1) dir
  let head := if isSeparator (← a.get 0) then 1 else 0
  let a ← if isSeparator (← a.get (len - 1)) then .ok a else a.set len backslash
  return some (← walk build fs head a head s)

/-- `MakeSureDirExist(const std::string&)`; a `std::string` may have terminators
in it, and `c_str()` then ends at the first one.  `MakeSureDirExist(const char*)`
is the same for a string without. -/
def makeSureDirExistStr {σ : Type} (build : Build) (fs : FileSystem σ) (s : σ)
    (dir : List UInt8) : Except Nat (Option (Walked σ)) :=
  makeSureDirExist build fs s (dir.takeWhile (· ≠ 0)) dir.length

/-! ### The copy -/

variable {build : Build} {a : TmpDir} {text : List UInt8} {len : Nat}

/-- What `tmpDir` holds behind the copy of `text`, where `strcpy_s` was given
`len + 1` characters. -/
structure Copied (a : TmpDir) (len : Nat) (text : List UInt8) : Prop where
  chars : ∀ j c, text[j]? = some c → a.get j = .ok c
  terminator : a.get text.length = .ok 0
  /-- what the library fills in behind the terminator is not a separator -/
  behind : ∀ j, text.length < j → j < 1024 → ∃ c, a.get j = .ok c ∧ isSeparator c = false
  zero : ∀ j, len < j → j < 1024 → a.get j = .ok 0

/-- The characters and the terminator are written. -/
theorem write_terminated (text : List UInt8) (h : text.length ≤ 1023) :
    ∃ a : TmpDir, Cells.write (fun _ => 0) 0 (text ++ [0]) = .ok a ∧
      (∀ j c, text[j]? = some c → a.get j = .ok c) ∧
      ∀ j, text.length ≤ j → j < 1024 → a.get j = .ok 0 := by
  obtain ⟨a, ha, hget⟩ := Cells.write_ok (n := 1024) (fun _ => (0 : UInt8)) 0
    (text ++ [0]) (by rw [List.length_append, List.length_singleton]; omega)
  refine ⟨a, ha, fun j c hc => ?_, fun j hj hlt => ?_⟩
  · have hj := (List.getElem?_eq_some_iff.mp hc).1
    rw [hget, if_neg (Nat.not_lt_zero j), Nat.sub_zero, List.getElem?_append_left hj, hc]
    rfl
  · rw [hget, if_neg (Nat.not_lt_zero j), Nat.sub_zero, List.getElem?_append_right hj]
    rcases Nat.eq_or_lt_of_le hj with rfl | hgt
    · rw [Nat.sub_self]
      rfl
    · rw [List.getElem?_eq_none (by rw [List.length_singleton]; omega), Option.elim_none]
      exact Cells.get_ok hlt

theorem strcpyS_copied (build : Build) (ht : text.length ≤ len)
    (hfit : len ≤ 1023 ∨ build = .release ∧ text.length ≤ 1023) :
    ∃ a, strcpyS build (fun _ => 0) (len + 1) text = .ok a ∧ Copied a len text := by
  obtain ⟨a, ha, htext, hzero⟩ := write_terminated text (by omega)
  have htake : (text ++ [0]).take (len + 1) = text ++ [0] :=
    List.take_of_length_le (by rw [List.length_append, List.length_singleton]; omega)
  rw [strcpyS, htake, ha, Cells.ok_bind, if_pos (Nat.lt_succ_of_le ht)]
  cases build with
  | release =>
      refine ⟨a, rfl, htext, hzero _ (Nat.le_refl _) (by omega), fun j hj hlt => ?_,
        fun j hj hlt => hzero j (by omega) hlt⟩
      exact ⟨0, hzero j (Nat.le_of_lt hj) hlt, rfl⟩
  | debug =>
      have hlen : len ≤ 1023 := by
        rcases hfit with h | ⟨h, -⟩
        · exact h
        · cases h
      obtain ⟨b, hb, hget⟩ := Cells.write_ok a (text.length + 1)
        (List.replicate (len + 1 - (text.length + 1)) 0xFE)
        (by rw [List.length_replicate]; omega)
      have hbefore : ∀ j, j < text.length + 1 → b.get j = a.get j := by
        intro j hj
        rw [hget, if_pos hj]
      refine ⟨b, hb, fun j c hc => ?_, ?_, fun j hj hlt => ?_, fun j hj hlt => ?_⟩
      · have hj := (List.getElem?_eq_some_iff.mp hc).1
        rw [hbefore j (by omega), htext j c hc]
      · rw [hbefore _ (Nat.lt_succ_self _), hzero _ (Nat.le_refl _) (by omega)]
      · rw [hget, if_neg (by omega), List.getElem?_replicate]
        split
        · exact ⟨0xFE, rfl, by decide⟩
        · exact ⟨0, hzero j (Nat.le_of_lt hj) hlt, rfl⟩
      · rw [hget, if_neg (by omega), List.getElem?_replicate, if_neg (by omega)]
        exact hzero j (by omega) hlt

/-- For the accepted length 1024 the terminator, or the filling behind it, does
not fit. -/
theorem strcpyS_outside (ht : text.length ≤ 1024)
    (hfit : ¬ (build = .release ∧ text.length ≤ 1023)) :
    strcpyS build (fun _ => 0) 1025 text = .error 1024 := by
  have htake : (text ++ [0]).take 1025 = text ++ [0] :=
    List.take_of_length_le (by rw [List.length_append, List.length_singleton]; omega)
  rw [strcpyS, htake]
  by_cases h : text.length ≤ 1023
  · obtain ⟨a, ha, -, -⟩ := write_terminated text h
    rw [ha, Cells.ok_bind, if_pos (by omega)]
    cases build with
    | release => exact absurd ⟨rfl, h⟩ hfit
    | debug => exact Cells.write_error (by omega) (by rw [List.length_replicate]; omega)
  · rw [Cells.write_error (Nat.zero_le _)
      (by rw [List.length_append, List.length_singleton]; omega)]
    rfl

/-! ### The walk -/

section Walk

variable {σ : Type} {fs : FileSystem σ} {s : σ} {head p e : Nat}

/-- The separator at `p` has its place back. -/
def Restored (p : Nat) (a b : TmpDir) : Prop :=
  ∀ j, b.get j = if j = p then .ok backslash else a.get j

/-- At a separator: with a terminator in its place, the string from `head` on ends
inside, and the separator can be put back. -/
theorem terminate_ok (a : TmpDir) (hhead : head ≤ p) (hp : p < 1024) :
    ∃ a₁ b : TmpDir, ∃ path, a.set p 0 = .ok a₁ ∧ a₁.get p = .ok 0 ∧
      a₁.upTo 0 head = .ok path ∧ a₁.set p backslash = .ok b ∧ Restored p a b := by
  have hset := Cells.set_ok (a := a) (x := 0) hp
  have hzero := Cells.get_of_set hset p
  rw [if_pos rfl] at hzero
  obtain ⟨path, hpath⟩ := Cells.upTo_ok hhead hzero
  have hback := Cells.set_ok (a := Function.update a ⟨p, hp⟩ 0) (x := backslash) hp
  refine ⟨_, _, path, hset, hzero, hpath, hback, fun j => ?_⟩
  rw [Cells.get_of_set hback, Cells.get_of_set hset]
  split <;> rfl

/-- **What is done at a separator lies inside.** -/
theorem visit_ok (build : Build) (fs : FileSystem σ) (a : TmpDir) (s : σ) (hhead : head ≤ p)
    (hp : p < 1024) :
    (∃ b s', visit build fs head a p s = .ok (true, b, s') ∧ Restored p a b) ∨
      ∃ b s', visit build fs head a p s = .ok (false, b, s') ∧ b.get p = .ok 0 := by
  obtain ⟨a₁, b, path, hset, hzero, hpath, hback, hb⟩ := terminate_ok a hhead hp
  simp only [visit, hset, hpath, hback, Cells.ok_bind]
  split
  · split
    · exact Or.inr ⟨a₁, _, rfl, hzero⟩
    · exact Or.inl ⟨b, _, rfl, hb⟩
  · exact Or.inl ⟨b, _, rfl, hb⟩

/-- Where no directory is missing, every separator gets its place back. -/
theorem visit_complete (build : Build) (a : TmpDir) (s : Unit) (hhead : head ≤ p)
    (hp : p < 1024) :
    ∃ b, visit build .complete head a p s = .ok (true, b, s) ∧ Restored p a b := by
  obtain ⟨a₁, b, path, hset, -, hpath, hback, hb⟩ := terminate_ok a hhead hp
  refine ⟨b, ?_, hb⟩
  simp only [visit, FileSystem.complete, hset, hpath, hback, Cells.ok_bind]
  rfl

theorem walk_nul (h : a.get p = .ok 0) : walk build fs head a p s = .ok ⟨true, p, a, s⟩ := by
  rw [walk]
  split
  · rename_i hget
    cases h.symm.trans hget
  · rename_i c hget
    obtain rfl := Except.ok.inj (h.symm.trans hget)
    rw [if_pos rfl]

theorem walk_char {c : UInt8} (h : a.get p = .ok c) (h0 : c ≠ 0) (hc : isSeparator c = false) :
    walk build fs head a p s = walk build fs head a (p + 1) s := by
  rw [walk]
  split
  · rename_i hget
    cases h.symm.trans hget
  · rename_i c' hget
    obtain rfl := Except.ok.inj (h.symm.trans hget)
    rw [if_neg h0, if_neg (by rw [hc]; exact Bool.false_ne_true)]

theorem walk_separator {c : UInt8} (h : a.get p = .ok c) (hc : isSeparator c = true) :
    walk build fs head a p s =
      match visit build fs head a p s with
      | .error i => .error i
      | .ok (false, a, s) => .ok ⟨false, p, a, s⟩
      | .ok (true, a, s) => walk build fs head a (p + 1) s := by
  have h0 : c ≠ 0 := by
    rintro rfl
    exact absurd hc (by decide)
  rw [walk]
  split
  · rename_i hget
    cases h.symm.trans hget
  · rename_i c' hget
    obtain rfl := Except.ok.inj (h.symm.trans hget)
    rw [if_neg h0, if_pos hc]

/-- **The walk stays inside** as long as there is a terminator in front of it, and
ends at one. -/
theorem walk_ok (build : Build) (fs : FileSystem σ) (a : TmpDir) (s : σ) (hhead : head ≤ p)
    (hpe : p ≤ e) (hz : a.get e = .ok 0) :
    ∃ w, walk build fs head a p s = .ok w ∧ w.tmpDir.get w.p = .ok 0 := by
  have he := Cells.lt_of_get hz
  induction hd : e - p generalizing a p s with
  | zero =>
      obtain rfl : p = e := by omega
      exact ⟨⟨true, p, a, s⟩, walk_nul hz, hz⟩
  | succ d ih =>
      have hp : p < 1024 := by omega
      have hget := Cells.get_ok (a := a) hp
      by_cases h0 : a ⟨p, hp⟩ = 0
      · rw [h0] at hget
        exact ⟨⟨true, p, a, s⟩, walk_nul hget, hget⟩
      · cases hc : isSeparator (a ⟨p, hp⟩) with
        | false =>
            rw [walk_char hget h0 hc]
            exact ih a s (by omega) (by omega) hz (by omega)
        | true =>
            rw [walk_separator hget hc]
            rcases visit_ok build fs a s hhead hp with ⟨b, s', hvisit, hb⟩ | ⟨b, s', hvisit, hb⟩
            · -- the terminator in front is still there
              have hz' : b.get e = .ok 0 := by
                rw [hb, if_neg (by omega), hz]
              rw [hvisit]
              exact ih b s' (by omega) (by omega) hz' (by omega)
            · rw [hvisit]
              exact ⟨⟨false, p, b, s'⟩, rfl, hb⟩

/-- **Without a terminator the walk leaves the array**, if no directory is
missing. -/
theorem walk_outside (build : Build) (a : TmpDir) (s : Unit) (hhead : head ≤ p) (hp : p ≤ 1024)
    (hnul : ∀ j, p ≤ j → a.get j ≠ .ok 0) :
    walk build .complete head a p s = .error 1024 := by
  induction hd : 1024 - p generalizing a p with
  | zero =>
      obtain rfl : p = 1024 := by omega
      rw [walk]
      split
      · rename_i i hget
        rw [Cells.get_error (Nat.le_refl _)] at hget
        rw [Except.error.inj hget]
      · rename_i c hget
        exact absurd (Cells.lt_of_get hget) (Nat.lt_irrefl _)
  | succ d ih =>
      have hlt : p < 1024 := by omega
      have hget := Cells.get_ok (a := a) hlt
      have h0 : a ⟨p, hlt⟩ ≠ 0 := by
        intro h
        rw [h] at hget
        exact hnul p (Nat.le_refl p) hget
      cases hc : isSeparator (a ⟨p, hlt⟩) with
      | false =>
          rw [walk_char hget h0 hc]
          exact ih a (by omega) (by omega) (fun j hj => hnul j (by omega)) (by omega)
      | true =>
          obtain ⟨b, hvisit, hb⟩ := visit_complete build a s hhead hlt
          rw [walk_separator hget hc, hvisit]
          refine ih b (by omega) (by omega) (fun j hj => ?_) (by omega)
          rw [hb, if_neg (by omega)]
          exact hnul j (by omega)

end Walk

/-! ### When every index lies inside -/

/-- Whatever directories there are, every index of `tmpDir` read or written lies
inside it, and the walk ends at a terminator. -/
def StaysInside (build : Build) (path : List UInt8) : Prop :=
  ∀ (σ : Type) (fs : FileSystem σ) (s : σ), ∃ w,
    makeSureDirExistStr build fs s path = .ok (some w) ∧ w.tmpDir.get w.p = .ok 0

/-- The path leaves room for a separator and a terminator, or the terminator is
still there. -/
def FitsTmpDir (path : List UInt8) : Prop :=
  path.length ≤ 1022 ∨
    path.length = 1023 ∧ (0 ∈ path ∨ ∃ c ∈ path.getLast?, isSeparator c = true)

/-- The part of a path that `c_str()` shows. -/
def cText (path : List UInt8) : List UInt8 := path.takeWhile (· ≠ 0)

variable {path : List UInt8} {b : TmpDir} {c l : UInt8} {e : Nat}

theorem cText_length_le (path : List UInt8) : (cText path).length ≤ path.length :=
  (List.takeWhile_prefix _).length_le

/-- The text is the whole path, or there is a terminator in the path. -/
theorem cText_cases (path : List UInt8) :
    (cText path = path ∧ 0 ∉ path) ∨ ((cText path).length < path.length ∧ 0 ∈ path) := by
  by_cases h : 0 ∈ path
  · right
    refine ⟨Nat.lt_of_le_of_ne (cText_length_le path) fun heq => ?_, h⟩
    have hall := (List.takeWhile_prefix (p := fun c : UInt8 => decide (c ≠ 0))).eq_of_length heq
    rw [← hall] at h
    exact absurd (List.mem_takeWhile_imp h) (by decide)
  · left
    refine ⟨List.takeWhile_eq_self_iff.mpr fun c hc => decide_eq_true ?_, h⟩
    rintro rfl
    exact h hc

/-- The function behind its copy; `c` and `l` are the first and the last character
of `tmpDir`. -/
theorem makeSureDirExist_eq {σ : Type} (fs : FileSystem σ) (s : σ) (h1 : 1 ≤ len)
    (h2 : len ≤ 1024) (hcopy : strcpyS build (fun _ => 0) (len + 1) text = .ok a)
    (hc : a.get 0 = .ok c) (hl : a.get (len - 1) = .ok l) :
    makeSureDirExist build fs s text len =
      (if isSeparator l then Except.ok a else a.set len backslash) >>= fun b =>
        walk build fs (if isSeparator c then 1 else 0) b (if isSeparator c then 1 else 0) s >>=
          fun w => pure (some w) := by
  rw [makeSureDirExist, if_neg (by omega)]
  simp only [hcopy, hc, hl, Cells.ok_bind]
  split <;> rfl

/-- With a terminator in front of the walk everything lies inside. -/
theorem makeSureDirExist_ok {σ : Type} (fs : FileSystem σ) (s : σ) (h1 : 1 ≤ len)
    (h2 : len ≤ 1024) (hcopy : strcpyS build (fun _ => 0) (len + 1) text = .ok a)
    (hc : a.get 0 = .ok c) (hl : a.get (len - 1) = .ok l)
    (hb : (if isSeparator l then Except.ok a else a.set len backslash) = .ok b)
    (hhead : isSeparator c = true → 1 ≤ e) (hz : b.get e = .ok 0) :
    ∃ w, makeSureDirExist build fs s text len = .ok (some w) ∧ w.tmpDir.get w.p = .ok 0 := by
  have hle : (if isSeparator c then 1 else 0) ≤ e := by
    split
    · rename_i h
      exact hhead h
    · exact Nat.zero_le e
  obtain ⟨w, hw, hend⟩ := walk_ok build fs b s (Nat.le_refl _) hle hz
  refine ⟨w, ?_, hend⟩
  rw [makeSureDirExist_eq fs s h1 h2 hcopy hc hl, hb, Cells.ok_bind, hw]
  rfl

/-- The first character is a separator only if the text is not empty. -/
theorem Copied.one_le (h : Copied a len text) (hc : a.get 0 = .ok c) (hsep : isSeparator c = true) :
    1 ≤ text.length := by
  cases text with
  | nil =>
      obtain rfl := Except.ok.inj (hc.symm.trans h.terminator)
      exact absurd hsep (by decide)
  | cons x xs => exact Nat.succ_le_succ (Nat.zero_le _)

/-- Behind a text that ends early there is no separator. -/
theorem Copied.last_of_lt (h : Copied a len text) (hlt : text.length < len) (hlen : len ≤ 1024) :
    ∃ l, a.get (len - 1) = .ok l ∧ isSeparator l = false := by
  rcases Nat.eq_or_lt_of_le (show text.length ≤ len - 1 by omega) with heq | hgt
  · exact ⟨0, heq ▸ h.terminator, by decide⟩
  · exact h.behind _ hgt (by omega)

/-- The last character of a text that is the whole path. -/
theorem Copied.last_of_full (h : Copied a path.length path) (h1 : 1 ≤ path.length) :
    ∃ l, path.getLast? = some l ∧ a.get (path.length - 1) = .ok l := by
  have hl := List.getLast?_eq_some_getLast (List.length_pos_iff.mp h1)
  refine ⟨_, hl, h.chars _ _ ?_⟩
  rw [← hl, List.getLast?_eq_getElem?]

theorem staysInside_of_fits (build : Build) (h1 : 1 ≤ path.length) (h : FitsTmpDir path) :
    StaysInside build path := by
  intro σ fs s
  have hlen : path.length ≤ 1023 := by
    rcases h with h | ⟨h, -⟩ <;> omega
  have hk := cText_length_le path
  obtain ⟨a, hcopy, ha⟩ := strcpyS_copied build hk (Or.inl hlen)
  have hc := Cells.get_ok (a := a) (show 0 < 1024 by decide)
  -- the separator behind the path is put where the array has a cell
  obtain ⟨b, hset⟩ : ∃ b, a.set path.length backslash = .ok b :=
    ⟨_, Cells.set_ok (by omega)⟩
  have hget := Cells.get_of_set hset
  rcases cText_cases path with ⟨hfull, hno⟩ | ⟨hlt, -⟩
  · have ha' : Copied a path.length path := by rwa [hfull] at ha
    obtain ⟨l, hlast, hl⟩ := ha'.last_of_full h1
    cases hsep : isSeparator l with
    | true =>
        refine makeSureDirExist_ok (b := a) (e := path.length) fs s h1 (by omega) hcopy hc hl
          (if_pos hsep) (fun _ => h1) ha'.terminator
    | false =>
        -- the separator takes the place of the terminator, and there is another behind it
        have hroom : path.length ≤ 1022 := by
          rcases h with h | ⟨-, hz | ⟨c, hc', hsep'⟩⟩
          · exact h
          · exact absurd hz hno
          · obtain rfl := Option.some.inj (hlast.symm.trans hc')
            rw [hsep] at hsep'
            cases hsep'
        refine makeSureDirExist_ok (b := b) (e := path.length + 1) fs s h1 (by omega) hcopy hc hl
          ((if_neg (by rw [hsep]; decide)).trans hset) (fun _ => by omega) ?_
        rw [hget, if_neg (by omega)]
        exact ha.zero _ (Nat.lt_succ_self _) (by omega)
  · obtain ⟨l, hl, hsep⟩ := ha.last_of_lt hlt (by omega)
    refine makeSureDirExist_ok (b := b) (e := (cText path).length) fs s h1 (by omega) hcopy hc hl
      ((if_neg (by rw [hsep]; decide)).trans hset) (fun hs => ha.one_le hc hs) ?_
    rw [hget, if_neg (Nat.ne_of_lt hlt)]
    exact ha.terminator

/-- **A path that does not fit leads out of `tmpDir`.** -/
theorem makeSureDirExistStr_outside (build : Build) (h2 : path.length ≤ 1024)
    (h : ¬ FitsTmpDir path) :
    makeSureDirExistStr build .complete () path = .error 1024 := by
  obtain ⟨h1022, hlast⟩ := not_or.mp h
  have hk := cText_length_le path
  by_cases hlen : path.length = 1024
  · by_cases hfit : build = .release ∧ (cText path).length ≤ 1023
    · -- the copy is inside, the separator behind the path is not
      obtain ⟨a, hcopy, ha⟩ := strcpyS_copied build hk (Or.inr hfit)
      obtain ⟨l, hl, hsep⟩ := ha.last_of_lt (by omega) h2
      have hc := Cells.get_ok (a := a) (show 0 < 1024 by decide)
      show makeSureDirExist build _ () (cText path) path.length = _
      rw [makeSureDirExist_eq _ _ (by omega) h2 hcopy hc hl, if_neg (by rw [hsep]; decide),
        Cells.set_error (by omega), hlen]
      rfl
    · show makeSureDirExist build _ () (cText path) path.length = _
      rw [makeSureDirExist, if_neg (by omega), hlen, strcpyS_outside (by omega) hfit]
      rfl
  · -- the separator takes the place of the last terminator
    have hlen : path.length = 1023 := by omega
    obtain ⟨hno, hsep⟩ := not_or.mp fun hl => hlast ⟨hlen, hl⟩
    rcases cText_cases path with ⟨hfull, -⟩ | ⟨-, hz⟩
    · obtain ⟨a, hcopy, ha⟩ := strcpyS_copied build hk (Or.inl (by omega))
      have hc := Cells.get_ok (a := a) (show 0 < 1024 by decide)
      have ha' : Copied a path.length path := by rwa [hfull] at ha
      obtain ⟨l, hl, hget⟩ := ha'.last_of_full (by omega)
      have hl' : isSeparator l ≠ true := fun hs => hsep ⟨l, hl, hs⟩
      have hset := Cells.set_ok (a := a) (x := backslash) (show path.length < 1024 by omega)
      have hnul : ∀ j, Cells.get (Function.update a ⟨path.length, by omega⟩ backslash) j ≠
          .ok 0 := by
        intro j
        rw [Cells.get_of_set hset]
        split
        · exact fun h => absurd (Except.ok.inj h) (by decide)
        · rename_i hj
          rcases Nat.lt_or_gt_of_ne hj with hlt | hgt
          · have hchar := List.getElem?_eq_getElem (l := path) hlt
            rw [ha'.chars _ _ hchar]
            intro heq
            exact hno (Except.ok.inj heq ▸ List.getElem_mem hlt)
          · rw [Cells.get_error (by omega)]
            exact fun h => by cases h
      show makeSureDirExist build _ () (cText path) path.length = _
      rw [makeSureDirExist_eq _ _ (by omega) h2 hcopy hc hget, if_neg hl', hset, Cells.ok_bind,
        walk_outside build _ () (Nat.le_refl _) (by split <;> omega) fun j _ => hnul j]
      rfl
    · exact absurd hz hno

/-- **`MakeSureDirExist` stays inside its buffer exactly if the path fits.**  For
every path of an accepted length, whatever characters are in it: each index of
`tmpDir` that is read or written is below 1024, and the walk ends at a terminator,
if and only if the path has at most 1022 characters, or it has 1023 and the last
one is a separator, or there is a terminator among them. -/
theorem staysInside_iff (build : Build) (h1 : 1 ≤ path.length) (h2 : path.length ≤ 1024) :
    StaysInside build path ↔ FitsTmpDir path := by
  constructor
  · intro h
    by_contra hfits
    obtain ⟨w, hw, -⟩ := h Unit .complete ()
    rw [makeSureDirExistStr_outside build h2 hfits] at hw
    cases hw
  · exact staysInside_of_fits build h1

/-- The path `logs`. -/
theorem staysInside_logs : StaysInside .debug [108, 111, 103, 115] :=
  (staysInside_iff .debug (by decide) (by decide)).mpr (Or.inl (by decide))

/-- **1024 characters are accepted**, and the terminator of the copy is written
behind the array. -/
theorem not_staysInside :
    ¬ ∀ (build : Build) (path : List UInt8), 1 ≤ path.length → path.length ≤ 1024 →
      StaysInside build path := by
  intro hall
  have hlen : (List.replicate 1024 (97 : UInt8)).length = 1024 := List.length_replicate
  have hfits : ¬ FitsTmpDir (List.replicate 1024 97) := by
    rw [FitsTmpDir, hlen]
    omega
  obtain ⟨w, hw, -⟩ := hall .release (List.replicate 1024 97) (by rw [hlen]; omega)
    (by rw [hlen]) Unit .complete ()
  rw [makeSureDirExistStr_outside .release (by rw [hlen]) hfits] at hw
  cases hw

end Libet
