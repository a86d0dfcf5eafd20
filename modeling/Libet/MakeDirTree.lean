/-
Libet/MakeDirTree.lean

What `util::MakeSureDirExist` leaves behind.

The walk of `MakeDirs` hands `_access` and `_mkdir` a piece of `tmpDir`: what stands
between `head` and the separator that `p` is at, with a backslash for every separator
before it (`walkText`).  On a tree of directories each piece names one directory, and
the next piece one that is further down, or the same where two separators follow each
other.  So the walk makes the directories on the way in order, each in its parent
(`makeSureDirExist_tree`).  A separator in front of the path is skipped: names are
taken from the current directory, the root of the tree here, even then.
-/
import Libet.Lib.DirTree
import Libet.MakeDirs

namespace Libet

/-! ### Paths -/

/-- The names in front of a character, and what the name it belongs to has so far. -/
structure PathScan where
  names : List (List UInt8)
  name : List UInt8
  deriving DecidableEq, Repr

namespace PathScan

/-- One more character. -/
def next (x : PathScan) (c : UInt8) : PathScan :=
  if isSeparator c then
    if x.name = [] then x else ⟨x.names ++ [x.name], []⟩
  else ⟨x.names, x.name ++ [c]⟩

/-- The names, with one that no separator follows. -/
def all (x : PathScan) : List (List UInt8) := if x.name = [] then x.names else x.names ++ [x.name]

/-- The characters of a path one after the other. -/
def scan (path : List UInt8) : PathScan := path.foldl next ⟨[], []⟩

end PathScan

/-- The names in a path; separators behind each other are like one. -/
def pathNames (path : List UInt8) : List (List UInt8) := (PathScan.scan path).all

/-- `_access` and `_mkdir` on a tree of directories, where those of `deny` may not be
made.  There is no directory without a name.  Names are bytes and nothing more: `.`
and `..` are names like others, names that differ in case are different, and there are
no files among the directories. -/
def FileSystem.tree (deny : List (List UInt8) → Bool) : FileSystem (DirTree (List UInt8)) where
  access t path := (if path ≠ [] ∧ t.Has (pathNames path) then 0 else -1, t)
  mkdir t path :=
    if path = [] then (-1, t)
    else
      let r := t.make deny (pathNames path)
      (if r.1 then 0 else -1, r.2)

variable {build : Build} {c : UInt8} {path done rest : List UInt8} {x : PathScan}

theorem scan_concat (path : List UInt8) (c : UInt8) :
    PathScan.scan (path ++ [c]) = (PathScan.scan path).next c := by
  rw [PathScan.scan, List.foldl_append]
  rfl

theorem next_separator (hc : isSeparator c = true) :
    x.next c = if x.name = [] then x else ⟨x.names ++ [x.name], []⟩ := if_pos hc

/-- Behind a separator the names are those in front of it. -/
theorem names_next (hc : isSeparator c = true) : (x.next c).names = x.all ∧ (x.next c).name = [] := by
  rw [next_separator hc, PathScan.all]
  split
  · rename_i h
    exact ⟨rfl, h⟩
  · exact ⟨rfl, rfl⟩

/-- Which separator it is makes no difference. -/
theorem next_backslash (hc : isSeparator c = true) : x.next backslash = x.next c := by
  rw [next_separator hc, next_separator (by decide)]

/-! ### The walk along the text -/

section Walk

variable {σ : Type} {fs : FileSystem σ} {s : σ} {a : TmpDir} {head : Nat}

/-- The walk at `rest`, behind `done`. -/
def walkText (build : Build) (fs : FileSystem σ) (done : List UInt8) :
    List UInt8 → σ → Bool × σ
  | [], s => (true, s)
  | c :: rest, s =>
      if isSeparator c then
        let found := fs.access s done
        if found.1 ≠ 0 then
          let made := fs.mkdir found.2 done
          if made.1 ≠ 0 ∧ build = .debug then (false, made.2)
          else walkText build fs (done ++ [backslash]) rest made.2
        else walkText build fs (done ++ [backslash]) rest found.2
      else walkText build fs (done ++ [c]) rest s

/-- From `head` on `tmpDir` holds a text and its terminator. -/
structure ShowsText (a : TmpDir) (head : Nat) (text : List UInt8) : Prop where
  chars : ∀ j c, text[j]? = some c → a.get (head + j) = .ok c ∧ c ≠ 0
  terminator : a.get (head + text.length) = .ok 0

/-- At a separator: `_access` gets the text in front of it, and behind it the separator
is a backslash. -/
theorem ShowsText.terminate (h : ShowsText a head (done ++ c :: rest)) :
    ∃ a₁ b : TmpDir, a.set (head + done.length) 0 = .ok a₁ ∧ a₁.upTo 0 head = .ok done ∧
      a₁.set (head + done.length) backslash = .ok b ∧
      ShowsText b head (done ++ [backslash] ++ rest) := by
  have hp : head + done.length < 1024 := by
    refine Cells.lt_of_get (a := a) (x := c) (h.chars done.length c ?_).1
    rw [List.getElem?_append_right (Nat.le_refl _), Nat.sub_self]
    rfl
  have hset := Cells.set_ok (a := a) (x := 0) hp
  have hback := Cells.set_ok (a := Function.update a ⟨_, hp⟩ 0) (x := backslash) hp
  have hget : ∀ j, Cells.get (Function.update (Function.update a ⟨_, hp⟩ 0) ⟨_, hp⟩ backslash) j =
      if j = head + done.length then .ok backslash else a.get j := by
    intro j
    rw [Cells.get_of_set hback, Cells.get_of_set hset]
    split <;> rfl
  refine ⟨_, _, hset, ?_, hback, fun j d hd => ?_, ?_⟩
  · refine Cells.upTo_eq (fun j d hd => ?_) ?_
    · have hj := (List.getElem?_eq_some_iff.mp hd).1
      rw [Cells.get_of_set hset, if_neg (by omega)]
      exact h.chars j d (by rw [List.getElem?_append_left hj]; exact hd)
    · rw [Cells.get_of_set hset, if_pos rfl]
  · rw [hget]
    rcases Nat.lt_trichotomy j done.length with hj | rfl | hj
    · rw [if_neg (by omega)]
      rw [List.append_assoc, List.getElem?_append_left hj] at hd
      exact h.chars j d (by rw [List.getElem?_append_left hj]; exact hd)
    · rw [List.append_assoc, List.getElem?_append_right (Nat.le_refl _), Nat.sub_self] at hd
      obtain rfl := Option.some.inj hd
      exact ⟨if_pos rfl, by decide⟩
    · rw [if_neg (by omega)]
      refine h.chars j d ?_
      rw [List.append_assoc, List.getElem?_append_right (by omega)] at hd
      rw [List.getElem?_append_right (by omega), ← hd]
      obtain ⟨k, hk⟩ : ∃ k, j - done.length = k + 1 := ⟨j - done.length - 1, by omega⟩
      rw [hk]
      rfl
  · have hend := h.terminator
    rw [List.length_append, List.length_cons] at hend
    rw [hget, List.length_append, List.length_append, List.length_singleton, if_neg (by omega),
      Nat.add_assoc done.length, Nat.add_comm 1]
    exact hend

/-- **The walk reads and writes one text**, whatever directories there are. -/
theorem walk_text (build : Build) (fs : FileSystem σ) (rest done : List UInt8) (a : TmpDir)
    (s : σ) (h : ShowsText a head (done ++ rest)) :
    ∃ w, walk build fs head a (head + done.length) s = .ok w ∧
      (w.ret, w.dirs) = walkText build fs done rest s := by
  induction rest generalizing done a s with
  | nil =>
      rw [List.append_nil] at h
      exact ⟨_, walk_nul h.terminator, rfl⟩
  | cons c rest ih =>
      obtain ⟨hget, h0⟩ := h.chars done.length c (by
        rw [List.getElem?_append_right (Nat.le_refl _), Nat.sub_self]
        rfl)
      have hlen : ∀ d : UInt8, head + done.length + 1 = head + (done ++ [d]).length := by
        intro d
        rw [List.length_append, List.length_singleton, Nat.add_assoc]
      by_cases hc : isSeparator c = true
      · obtain ⟨a₁, b, hset, hdone, hback, hb⟩ := h.terminate
        have hvisit : visit build fs head a (head + done.length) s =
            if (fs.access s done).1 ≠ 0 then
              if (fs.mkdir (fs.access s done).2 done).1 ≠ 0 ∧ build = .debug then
                .ok (false, a₁, (fs.mkdir (fs.access s done).2 done).2)
              else .ok (true, b, (fs.mkdir (fs.access s done).2 done).2)
            else .ok (true, b, (fs.access s done).2) := by
          simp only [visit, hset, hdone, hback, Cells.ok_bind]
          split
          · split <;> rfl
          · rfl
        rw [walk_separator hget hc, hvisit, walkText, if_pos hc, hlen backslash]
        dsimp only
        by_cases hfound : (fs.access s done).1 ≠ 0
        · rw [if_pos hfound, if_pos hfound]
          by_cases hmade : (fs.mkdir (fs.access s done).2 done).1 ≠ 0 ∧ build = .debug
          · rw [if_pos hmade, if_pos hmade]
            exact ⟨_, rfl, rfl⟩
          · rw [if_neg hmade, if_neg hmade]
            exact ih (done ++ [backslash]) b _ hb
        · rw [if_neg hfound, if_neg hfound]
          exact ih (done ++ [backslash]) b _ hb
      · rw [walk_char hget h0 (Bool.eq_false_of_not_eq_true hc), walkText, if_neg hc, hlen c]
        refine ih (done ++ [c]) a s ?_
        rwa [List.append_assoc]

end Walk

/-! ### The walk on a tree -/

section Tree

variable {deny : List (List UInt8) → Bool} {t s : DirTree (List UInt8)}

/-- Further characters leave the names as they are, and add to them. -/
theorem names_foldl (rest : List UInt8) (x : PathScan) :
    ∃ e, (rest.foldl PathScan.next x).names = x.names ++ e := by
  induction rest generalizing x with
  | nil => exact ⟨[], (List.append_nil _).symm⟩
  | cons c rest ih =>
      obtain ⟨e, he⟩ := ih (x.next c)
      by_cases hc : isSeparator c = true
      · rw [List.foldl_cons, he, (names_next hc).1, PathScan.all]
        split
        · exact ⟨e, rfl⟩
        · exact ⟨[x.name] ++ e, List.append_assoc ..⟩
      · rw [List.foldl_cons, he, PathScan.next, if_neg hc]
        exact ⟨e, rfl⟩

/-- **At a separator** the directory in front of it is made if it is missing. -/
theorem extends_ensure (h : t.Extends deny (PathScan.scan done).names s) :
    t.Extends deny (pathNames done) (s.ensure deny (pathNames done)).2 := by
  rw [pathNames, PathScan.all]
  split
  · rw [DirTree.ensure]
    split
    · exact h
    · rename_i hno
      rw [h.make_again hno]
      exact h
  · exact h.ensure

/-- **The walk makes the directories on the way**, and in the release build it goes on
behind one that cannot be made. -/
theorem walkText_tree (build : Build) (rest done : List UInt8) (s : DirTree (List UInt8))
    (h : DirTree.Extends deny t (PathScan.scan done).names s)
    (hall : build = .debug → s.Has (PathScan.scan done).names)
    (hfirst : done = [] → ∀ c r, rest = c :: r → isSeparator c = false) :
    DirTree.Extends deny t (PathScan.scan (done ++ rest)).names
        (walkText build (.tree deny) done rest s).2 ∧
      ((walkText build (.tree deny) done rest s).1 = true ↔ build = .release ∨
        (walkText build (.tree deny) done rest s).2.Has (PathScan.scan (done ++ rest)).names) := by
  induction rest generalizing done s with
  | nil =>
      rw [List.append_nil]
      refine ⟨h, iff_of_true rfl ?_⟩
      cases build with
      | release => exact Or.inl rfl
      | debug => exact Or.inr (hall rfl)
  | cons c rest ih =>
      have hmid : ∀ d, done ++ [d] = [] → ∀ c r, rest = c :: r → isSeparator c = false :=
        fun d hnil => absurd hnil (List.append_ne_nil_of_right_ne_nil _ (List.cons_ne_nil _ _))
      by_cases hc : isSeparator c = true
      · have hne : done ≠ [] := by
          intro hnil
          rw [hfirst hnil c rest rfl] at hc
          cases hc
        have hext := extends_ensure h
        -- the scan does not see which separator it is
        have hscan : PathScan.scan (done ++ c :: rest) =
            PathScan.scan (done ++ [backslash] ++ rest) := by
          rw [PathScan.scan, PathScan.scan, List.foldl_append, List.foldl_append, List.foldl_append,
            List.foldl_cons, List.foldl_cons, List.foldl_nil, next_backslash hc]
        have hnames : (PathScan.scan (done ++ [backslash])).names = pathNames done := by
          rw [scan_concat, (names_next (by decide)).1, pathNames]
        have hgo : ∀ r : DirTree (List UInt8), DirTree.Extends deny t (pathNames done) r →
            (build = .debug → r.Has (pathNames done)) →
            DirTree.Extends deny t (PathScan.scan (done ++ c :: rest)).names
                (walkText build (.tree deny) (done ++ [backslash]) rest r).2 ∧
              ((walkText build (.tree deny) (done ++ [backslash]) rest r).1 = true ↔
                build = .release ∨ (walkText build (.tree deny) (done ++ [backslash]) rest r).2.Has
                  (PathScan.scan (done ++ c :: rest)).names) := by
          intro r hr hhas
          rw [hscan]
          exact ih (done ++ [backslash]) r (hnames ▸ hr) (hnames ▸ hhas) (hmid _)
        rw [walkText, if_pos hc]
        simp only [FileSystem.tree, hne, ne_eq, not_false_eq_true, true_and, if_false]
        by_cases hhas : s.Has (pathNames done)
        · rw [if_pos hhas, if_neg (by decide)]
          rw [DirTree.ensure, if_pos hhas] at hext
          exact hgo s hext fun _ => hhas
        · have hanswer : (s.ensure deny (pathNames done)).1 = true ↔
              (s.ensure deny (pathNames done)).2.Has (pathNames done) := s.ensure_fst
          rw [DirTree.ensure, if_neg hhas] at hext hanswer
          rw [if_neg hhas, if_pos (by decide)]
          cases hmade : (s.make deny (pathNames done)).1 with
          | true =>
              rw [if_pos rfl, if_neg fun h => h.1 rfl]
              exact hgo _ hext fun _ => hanswer.mp hmade
          | false =>
              have hno : ¬ (s.make deny (pathNames done)).2.Has (pathNames done) := by
                rw [← hanswer, hmade]
                exact Bool.false_ne_true
              cases build with
              | release =>
                  rw [if_neg (by decide)]
                  exact hgo _ hext fun hb => by cases hb
              | debug =>
                  rw [if_pos (by decide)]
                  obtain ⟨e, he⟩ := names_foldl rest (PathScan.scan (done ++ [backslash]))
                  have hfinal : (PathScan.scan (done ++ c :: rest)).names = pathNames done ++ e := by
                    rw [hscan, PathScan.scan, List.foldl_append, ← PathScan.scan, he, hnames]
                  rw [hfinal]
                  refine ⟨hext.beyond hno e, iff_of_false Bool.false_ne_true ?_⟩
                  rintro (hb | hall)
                  · cases hb
                  · exact hno (hall.of_prefix (List.prefix_append _ _))
      · have hscan : (PathScan.scan (done ++ [c])).names = (PathScan.scan done).names := by
          rw [scan_concat, PathScan.next, if_neg hc]
        rw [walkText, if_neg hc, show done ++ c :: rest = done ++ [c] ++ rest by
          rw [List.append_assoc]; rfl]
        exact ih (done ++ [c]) s (hscan ▸ h) (hscan ▸ hall) (hmid _)

/-! ### Main result -/

/-- The text that is walked along: the path, with a separator behind it. -/
def withSeparator (path : List UInt8) : List UInt8 :=
  if path.getLast?.elim false isSeparator then path else path ++ [backslash]

theorem names_withSeparator (h1 : 1 ≤ path.length) :
    (PathScan.scan (withSeparator path)).names = pathNames path := by
  obtain ⟨p, l, rfl⟩ : ∃ p l, path = p ++ [l] := by
    rcases List.eq_nil_or_concat path with rfl | ⟨p, l, rfl⟩
    · exact absurd h1 (by decide)
    · exact ⟨p, l, List.concat_eq_append⟩
  rw [withSeparator, List.getLast?_concat]
  show (PathScan.scan (if isSeparator l = true then p ++ [l] else p ++ [l] ++ [backslash])).names = _
  split
  · rename_i hl
    obtain ⟨-, hname⟩ := names_next (x := PathScan.scan p) hl
    rw [pathNames, PathScan.all, scan_concat, if_pos hname]
  · rw [scan_concat, (names_next (by decide)).1, pathNames]

/-- A separator in front of a text is skipped. -/
theorem scan_skip {text : List UInt8} (hc : isSeparator c = true) :
    PathScan.scan (c :: text) = PathScan.scan text := by
  rw [PathScan.scan, List.foldl_cons, next_separator hc, if_pos rfl]
  rfl

theorem ShowsText.tail {a : TmpDir} {text : List UInt8} (h : ShowsText a 0 (c :: text)) :
    ShowsText a 1 text := by
  refine ⟨fun j d hd => ?_, ?_⟩
  · have hchar := h.chars (j + 1) d hd
    rwa [show 0 + (j + 1) = 1 + j by omega] at hchar
  · have hend := h.terminator
    rwa [List.length_cons, show 0 + (text.length + 1) = 1 + text.length by omega] at hend

/-- The copy of a path that fits, with the separator behind it. -/
theorem exists_copy {σ : Type} (build : Build) (fs : FileSystem σ) (s : σ) (h1 : 1 ≤ path.length)
    (hfit : FitsTmpDir path) (hno : 0 ∉ path) :
    ∃ (a : TmpDir) (c : UInt8), path.head? = some c ∧ ShowsText a 0 (withSeparator path) ∧
      makeSureDirExistStr build fs s path =
        walk build fs (if isSeparator c then 1 else 0) a (if isSeparator c then 1 else 0) s >>=
          fun w => pure (some w) := by
  have hlen : path.length ≤ 1023 := by
    rcases hfit with h | ⟨h, -⟩ <;> omega
  have hfull : cText path = path := by
    rcases cText_cases path with ⟨hfull, -⟩ | ⟨-, hz⟩
    · exact hfull
    · exact absurd hz hno
  obtain ⟨a, hcopy, ha⟩ := strcpyS_copied build (Nat.le_refl path.length) (Or.inl hlen)
  obtain ⟨l, hlast, hl⟩ := ha.last_of_full h1
  obtain ⟨c, hhead⟩ : ∃ c, path.head? = some c := by
    cases path with
    | nil => exact absurd h1 (by decide)
    | cons c rest => exact ⟨c, rfl⟩
  have hc : a.get 0 = .ok c := ha.chars 0 c (by rw [← hhead, List.head?_eq_getElem?])
  have hchar : ∀ j c, path[j]? = some c → a.get (0 + j) = .ok c ∧ c ≠ 0 := by
    intro j c hj
    rw [Nat.zero_add]
    refine ⟨ha.chars j c hj, ?_⟩
    rintro rfl
    exact hno (List.mem_of_getElem? hj)
  have heq : makeSureDirExistStr build fs s path = makeSureDirExist build fs s path path.length := by
    rw [makeSureDirExistStr, ← cText, hfull]
  rw [heq, makeSureDirExist_eq fs s h1 (by omega) hcopy hc hl, withSeparator, hlast]
  cases hsep : isSeparator l with
  | true =>
      refine ⟨a, c, hhead, ?_, rfl⟩
      rw [Option.elim_some, hsep, if_pos rfl]
      exact ⟨hchar, by rw [Nat.zero_add]; exact ha.terminator⟩
  | false =>
      have hroom : path.length ≤ 1022 := by
        rcases hfit with h | ⟨-, hz | ⟨d, hd, hsep'⟩⟩
        · exact h
        · exact absurd hz hno
        · obtain rfl := Option.some.inj (hlast.symm.trans hd)
          rw [hsep] at hsep'
          cases hsep'
      obtain ⟨b, hset⟩ : ∃ b, a.set path.length backslash = .ok b := ⟨_, Cells.set_ok (by omega)⟩
      have hget := Cells.get_of_set hset
      refine ⟨b, c, hhead, ?_, ?_⟩
      · rw [Option.elim_some, hsep, if_neg (by decide)]
        refine ⟨fun j d hd => ?_, ?_⟩
        · rw [hget]
          rcases Nat.lt_or_ge j path.length with hj | hj
          · rw [if_neg (by omega)]
            exact hchar j d (by rw [← hd, List.getElem?_append_left hj])
          · -- the separator has taken the place of the terminator
            rw [List.getElem?_append_right hj] at hd
            have hj' : j - path.length = 0 := by
              have hlt := (List.getElem?_eq_some_iff.mp hd).1
              rw [List.length_singleton] at hlt
              omega
            rw [hj'] at hd
            obtain rfl := Option.some.inj hd
            exact ⟨if_pos (by omega), by decide⟩
        · rw [hget, List.length_append, List.length_singleton, if_neg (by omega), Nat.zero_add]
          exact ha.zero _ (Nat.lt_succ_self _) (by omega)
      · rw [if_neg (by decide), hset, Cells.ok_bind]

/-- **`MakeSureDirExist` makes the directories on the way.**  For every path that fits
into `tmpDir`, has no terminator in it and does not begin with two separators, on
every tree and whatever may not be made there: behind the call there are the
directories that were there and those on the way to the path with nothing in front of
them that is missing and refused, and no others.  The debug build returns whether the
last one is there, the release build `true`. -/
theorem makeSureDirExist_tree (build : Build) (deny : List (List UInt8) → Bool)
    (t : DirTree (List UInt8)) (h1 : 1 ≤ path.length) (hfit : FitsTmpDir path) (hno : 0 ∉ path)
    (hunc : ∀ c d rest, path = c :: d :: rest → isSeparator c = true → isSeparator d = false) :
    ∃ w, makeSureDirExistStr build (.tree deny) t path = .ok (some w) ∧
      (∀ d, w.dirs.Has d ↔ t.Has d ∨ d <+: pathNames path ∧ t.Free deny d) ∧
      (w.ret = true ↔ build = .release ∨ w.dirs.Has (pathNames path)) := by
  obtain ⟨a, c, hhead, ha, heq⟩ := exists_copy build (.tree deny) t h1 hfit hno
  -- the walk begins behind a separator in front
  obtain ⟨text, hscan, htext, hfirst⟩ : ∃ text, PathScan.scan text = PathScan.scan (withSeparator path) ∧
      ShowsText a (if isSeparator c then 1 else 0) text ∧
      ∀ d r, text = d :: r → isSeparator d = false := by
    obtain ⟨rest, hrest⟩ : ∃ rest, withSeparator path = c :: rest := by
      rw [withSeparator]
      cases path with
      | nil => cases hhead
      | cons d rest =>
          obtain rfl := Option.some.inj hhead
          split
          · exact ⟨rest, rfl⟩
          · exact ⟨rest ++ [backslash], rfl⟩
    cases hc : isSeparator c with
    | false =>
        refine ⟨withSeparator path, rfl, ha, fun d r hd => ?_⟩
        rw [hrest] at hd
        exact (List.cons.inj hd).1 ▸ hc
    | true =>
        rw [hrest] at ha ⊢
        refine ⟨rest, (scan_skip hc).symm, ha.tail, fun d r hd => ?_⟩
        cases path with
        | nil => cases hhead
        | cons x path =>
            obtain rfl := Option.some.inj hhead
            rw [withSeparator] at hrest
            split at hrest
            · obtain rfl := (List.cons.inj hrest).2
              exact hunc x d r (by rw [hd]) hc
            · rename_i hlast
              cases path with
              | nil => exact absurd hc hlast
              | cons y path =>
                  have hpath : y :: (path ++ [backslash]) = rest := (List.cons.inj hrest).2
                  rw [hd] at hpath
                  exact (List.cons.inj hpath).1 ▸ hunc x y path rfl hc
  obtain ⟨w, hw, hret⟩ := walk_text build (.tree deny) text [] a t htext
  have htree := walkText_tree build text [] t (DirTree.Extends.nil : DirTree.Extends deny t [] t)
    (fun _ => t.has_nil) (fun _ => hfirst)
  rw [List.nil_append, hscan, names_withSeparator h1, ← hret] at htree
  refine ⟨w, ?_, htree.1, htree.2⟩
  have hw : walk build (.tree deny) (if isSeparator c then 1 else 0) a
      (if isSeparator c then 1 else 0) t = .ok w := hw
  rw [heq, hw]
  rfl

/-- The path `/a//b` below a directory that has `a` in it. -/
theorem makeSureDirExist_tree_ab :
    ∃ w, makeSureDirExistStr .debug (.tree fun _ => false)
        (DirTree.root.add [[97]] DirTree.root.has_nil) [47, 97, 47, 47, 98] = .ok (some w) ∧
      (∀ d, w.dirs.Has d ↔ (DirTree.root.add [[97]] DirTree.root.has_nil).Has d ∨
        d <+: [[97], [98]] ∧ DirTree.Free (fun _ => false)
          (DirTree.root.add [[97]] DirTree.root.has_nil) d) ∧
      (w.ret = true ↔ Build.debug = .release ∨ w.dirs.Has [[97], [98]]) :=
  makeSureDirExist_tree .debug (fun _ => false) (DirTree.root.add [[97]] DirTree.root.has_nil)
    (by decide) (Or.inl (by decide)) (by decide) fun c d rest h _ => by
      obtain ⟨-, h⟩ := List.cons.inj h
      rw [← (List.cons.inj h).1]
      decide

end Tree

end Libet
