import Mathlib.Data.List.Induction

/-!
# Resolving paths

`resolvePath` of `src/resolvePath.cpp`, over paths as `boost::filesystem` iterates over them and an
abstract file system with symbolic links. The parent path of the root is the empty path, so that a
`..` at the root makes the result relative. `preserves_iff` says for which absolute paths the result
is absolute and resolved, and denotes the same file.
-/

namespace Smerp.Utils

/-- A component of a path. -/
inductive Component (ν : Type*) where
  | dot
  | dotdot
  | name (n : ν)
  deriving DecidableEq, Repr

/-- A `boost::filesystem::path`: whether it has the root in front, and its components. -/
structure Path (ν : Type*) where
  rooted : Bool
  components : List (Component ν)
  deriving DecidableEq, Repr

/-- What the iterator of a path yields: the root and then the components. -/
inductive Element (ν : Type*) where
  | root
  | component (c : Component ν)
  deriving DecidableEq, Repr

namespace Path

variable {ν : Type*}

/-- A default constructed path. -/
def empty : Path ν := ⟨false, []⟩

/-- The elements from `begin()` to `end()`. -/
def elements (p : Path ν) : List (Element ν) :=
  (if p.rooted then [.root] else []) ++ p.components.map .component

/-- `operator/=` with a component. -/
def append (p : Path ν) (c : Component ν) : Path ν := { p with components := p.components ++ [c] }

/-- `filename`, where it is a component; of the root it is the root itself. -/
def filename (p : Path ν) : Option (Component ν) := p.components.getLast?

/-- `parent_path`: of the root it is the empty path. -/
def parentPath (p : Path ν) : Path ν :=
  if p.components = [] then empty else { p with components := p.components.dropLast }

/-- A path with a component behind it ends with this component. -/
theorem append_inj {p : Path ν} {c last : Component ν} {rooted : Bool} {front : List (Component ν)}
    (h : p.append c = ⟨rooted, front ++ [last]⟩) : p = ⟨rooted, front⟩ ∧ c = last := by
  obtain ⟨rooted', comps⟩ := p
  have hrooted : rooted' = rooted := congrArg Path.rooted h
  have hcomps : comps ++ [c] = front ++ [last] := congrArg Path.components h
  obtain ⟨hfront, hlast⟩ := List.append_inj' hcomps rfl
  rw [hrooted, hfront]
  exact ⟨rfl, List.singleton_inj.mp hlast⟩

end Path

/-- A file system: its files, the parents of the directories, and what stands under a name. Behind
the name of a symbolic link there is the file it points to. The parent of the root is the root, and
a name that is no symbolic link leads to a file whose parent is the directory. -/
structure FileSystem (δ ν : Type*) where
  root : δ
  current : δ
  parent : δ → Option δ
  child : δ → ν → Option δ
  link : δ → ν → Bool
  parent_root : parent root = some root
  parent_child (dir : δ) (n : ν) (file up : δ) : link dir n = false → child dir n = some file →
    parent file = some up → up = dir

namespace FileSystem

variable {δ ν : Type*} (fs : FileSystem δ ν)

/-- Follow one component. Only a directory has a `.` and a `..`. -/
def follow (dir : δ) : Component ν → Option δ
  | .dot => (fs.parent dir).map fun _ ↦ dir
  | .dotdot => fs.parent dir
  | .name n => fs.child dir n

/-- The file that a path denotes. -/
def denote (p : Path ν) : Option δ :=
  p.components.foldlM fs.follow (if p.rooted then fs.root else fs.current)

/-- `is_symlink`: the last component is a name under which there is a symbolic link. -/
def isSymlink (p : Path ν) : Bool :=
  match p.filename with
  | some (.name n) => (fs.denote p.parentPath).any (fs.link · n)
  | some .dot | some .dotdot | none => false

end FileSystem

section Resolve

variable {δ ν : Type*} [DecidableEq ν]

/-- The body of the loop for a component. -/
def resolveComponent (fs : FileSystem δ ν) (result : Path ν) : Component ν → Path ν
  | .dotdot =>
      if fs.isSymlink result then result.append .dotdot
      else if result.filename = some .dotdot then result.append .dotdot
      else result.parentPath
  | .dot => result
  | .name n => result.append (.name n)

/-- The body of the loop. The root is appended like a name. -/
def resolveElement (fs : FileSystem δ ν) (result : Path ν) : Element ν → Path ν
  | .root => { result with rooted := true }
  | .component c => resolveComponent fs result c

/-- `resolvePath` -/
def resolvePath (fs : FileSystem δ ν) (path : Path ν) : Path ν :=
  path.elements.foldl (resolveElement fs) .empty

/-- The result is absolute, has no `.`, denotes the file of the path and is resolved itself. -/
structure Preserved (fs : FileSystem δ ν) (path : Path ν) : Prop where
  absolute : (resolvePath fs path).rooted = true
  no_dot : .dot ∉ (resolvePath fs path).components
  same (file : δ) : fs.denote path = some file → fs.denote (resolvePath fs path) = some file
  again : resolvePath fs (resolvePath fs path) = resolvePath fs path

/-- The components cancel out behind the absolute path with these components: they are `.` and pairs
of a name that is no symbolic link with the `..` that belongs to it. -/
inductive Vanishes (fs : FileSystem δ ν) : List (Component ν) → List (Component ν) → Prop
  | nil (front : List (Component ν)) : Vanishes fs front []
  | dot {front comps : List (Component ν)} : Vanishes fs front comps →
      Vanishes fs front (comps ++ [.dot])
  | pair {front first second : List (Component ν)} {n : ν} : Vanishes fs front first →
      Vanishes fs (front ++ [.name n]) second → fs.isSymlink ⟨true, front ++ [.name n]⟩ = false →
      Vanishes fs front (first ++ .name n :: second ++ [.dotdot])

/-- No `..` stands behind components that cancel out at the root. -/
def StaysBelow (fs : FileSystem δ ν) (comps : List (Component ν)) : Prop :=
  ∀ front back, comps = front ++ .dotdot :: back → ¬ Vanishes fs [] front

variable (fs : FileSystem δ ν)

/-- Behind the root the loop goes through the components. -/
theorem resolve_path_eq (rooted : Bool) (comps : List (Component ν)) :
    resolvePath fs ⟨rooted, comps⟩ = comps.foldl (resolveComponent fs) ⟨rooted, []⟩ := by
  cases rooted with
  | true => exact List.foldl_map
  | false => exact List.foldl_map

/-- One more component. -/
theorem resolve_concat (start : Path ν) (comps : List (Component ν)) (c : Component ν) :
    (comps ++ [c]).foldl (resolveComponent fs) start =
      resolveComponent fs (comps.foldl (resolveComponent fs) start) c := by
  rw [List.foldl_append]
  rfl

/-- What the loop does with a component: it is ignored, kept, or takes the last component away. -/
theorem resolve_cases (result : Path ν) (c : Component ν) :
    c = .dot ∧ resolveComponent fs result c = result ∨
      c ≠ .dot ∧ resolveComponent fs result c = result.append c ∨
      c = .dotdot ∧ fs.isSymlink result = false ∧ result.filename ≠ some .dotdot ∧
        resolveComponent fs result c = result.parentPath := by
  cases c with
  | dot => exact .inl ⟨rfl, rfl⟩
  | name n => exact .inr (.inl ⟨nofun, rfl⟩)
  | dotdot =>
      by_cases hlink : fs.isSymlink result = true
      · exact .inr (.inl ⟨nofun, if_pos hlink⟩)
      by_cases hlast : result.filename = some .dotdot
      · refine .inr (.inl ⟨nofun, ?_⟩)
        rw [resolveComponent, if_neg hlink, if_pos hlast]
      · refine .inr (.inr ⟨rfl, Bool.eq_false_iff.mpr hlink, hlast, ?_⟩)
        rw [resolveComponent, if_neg hlink, if_neg hlast]

/-! ## The result is resolved -/

/-- Every front of the path is resolved to itself. -/
def Stable (p : Path ν) : Prop :=
  .dot ∉ p.components ∧ ∀ front back, p.components = front ++ back →
    front.foldl (resolveComponent fs) ⟨p.rooted, []⟩ = ⟨p.rooted, front⟩

variable {fs} {result : Path ν}

/-- The parent path of a stable path is stable. -/
theorem Stable.parent_path (h : Stable fs result) : Stable fs result.parentPath := by
  by_cases hempty : result.components = []
  · rw [Path.parentPath, if_pos hempty]
    refine ⟨List.not_mem_nil, ?_⟩
    intro front back hsplit
    obtain ⟨rfl, -⟩ := List.append_eq_nil_iff.mp hsplit.symm
    rfl
  · rw [Path.parentPath, if_neg hempty]
    refine ⟨fun hmem ↦ h.1 (List.dropLast_subset _ hmem), ?_⟩
    intro front back hsplit
    have hlast := List.dropLast_concat_getLast hempty
    refine h.2 front (back ++ [result.components.getLast hempty]) ?_
    rw [← List.append_assoc, ← hsplit]
    exact hlast.symm

/-- A component that is kept leaves the path stable. -/
theorem Stable.append (h : Stable fs result) {c : Component ν} (hc : c ≠ .dot)
    (hkept : resolveComponent fs result c = result.append c) : Stable fs (result.append c) := by
  constructor
  · intro hmem
    rcases List.mem_append.mp hmem with hold | hnew
    · exact h.1 hold
    · exact hc (List.mem_singleton.mp hnew).symm
  · intro front back hsplit
    have hcomponents : result.components ++ [c] = front ++ back := hsplit
    rcases List.eq_nil_or_concat back with rfl | ⟨rest, last, rfl⟩
    · rw [List.append_nil] at hcomponents
      have hall := h.2 result.components [] (List.append_nil _).symm
      rw [← hcomponents, resolve_concat]
      show resolveComponent fs (result.components.foldl (resolveComponent fs) ⟨result.rooted, []⟩) c
        = _
      rw [hall]
      exact hkept
    · rw [List.concat_eq_append, ← List.append_assoc] at hcomponents
      exact h.2 front rest (List.append_inj' hcomponents rfl).1

/-- The result of the loop is stable. -/
theorem stable_fold (rooted : Bool) (comps : List (Component ν)) :
    Stable fs (comps.foldl (resolveComponent fs) ⟨rooted, []⟩) := by
  induction comps using List.reverseRecOn with
  | nil =>
      refine ⟨List.not_mem_nil, ?_⟩
      intro front back hsplit
      obtain ⟨rfl, -⟩ := List.append_eq_nil_iff.mp hsplit.symm
      rfl
  | append_singleton comps c ih =>
      rw [resolve_concat]
      rcases resolve_cases fs (comps.foldl (resolveComponent fs) ⟨rooted, []⟩) c with
        ⟨-, hsame⟩ | ⟨hc, hkept⟩ | ⟨-, -, -, hparent⟩
      · rw [hsame]
        exact ih
      · rw [hkept]
        exact ih.append hc hkept
      · rw [hparent]
        exact ih.parent_path

/-! ## Which components cancel out -/

/-- A name that is no symbolic link is taken away by a `..`. -/
theorem resolve_parent {front : List (Component ν)} {n : ν}
    (hlink : fs.isSymlink ⟨true, front ++ [.name n]⟩ = false) :
    resolveComponent fs ⟨true, front ++ [.name n]⟩ .dotdot = ⟨true, front⟩ := by
  have hlast : (⟨true, front ++ [.name n]⟩ : Path ν).filename ≠ some .dotdot := by
    rw [Path.filename, List.getLast?_concat]
    exact nofun
  rw [resolveComponent, hlink, if_neg Bool.false_ne_true, if_neg hlast, Path.parentPath,
    if_neg (List.append_ne_nil_of_right_ne_nil _ (List.cons_ne_nil _ _)), List.dropLast_concat]

/-- Components that cancel out leave the result as it is. -/
theorem Vanishes.fold {front comps : List (Component ν)} (h : Vanishes fs front comps) :
    comps.foldl (resolveComponent fs) ⟨true, front⟩ = ⟨true, front⟩ := by
  induction h with
  | nil front => rfl
  | dot _ ih =>
      rw [resolve_concat, ih]
      rfl
  | @pair front first second n _ _ hlink ihfirst ihsecond =>
      have hinner : (.name n :: second).foldl (resolveComponent fs) ⟨true, front⟩ =
          ⟨true, front ++ [.name n]⟩ := ihsecond
      rw [resolve_concat, List.foldl_append, ihfirst, hinner]
      exact resolve_parent hlink

/-- What a `..` takes away is a name that is no symbolic link. -/
theorem parent_split {comps : List (Component ν)} (hstable : Stable fs result)
    (hlink : fs.isSymlink result = false) (hlast : result.filename ≠ some .dotdot)
    (hparent : result.parentPath = ⟨true, comps⟩) :
    ∃ n, result = ⟨true, comps ++ [.name n]⟩ ∧
      fs.isSymlink ⟨true, comps ++ [.name n]⟩ = false := by
  obtain ⟨rooted, components⟩ := result
  rcases List.eq_nil_or_concat components with rfl | ⟨front, c, rfl⟩
  · have hrooted : false = true := congrArg Path.rooted hparent
    exact absurd hrooted Bool.false_ne_true
  · rw [List.concat_eq_append] at hstable hlink hlast hparent ⊢
    rw [Path.parentPath, if_neg (List.append_ne_nil_of_right_ne_nil _ (List.cons_ne_nil _ _)),
      List.dropLast_concat] at hparent
    obtain ⟨hrooted, hfront⟩ := Path.mk.injEq _ _ _ _ ▸ hparent
    have hroot : rooted = true := hrooted
    have hcomps : front = comps := hfront
    subst hroot hcomps
    cases c with
    | name n => exact ⟨n, rfl, hlink⟩
    | dot => exact absurd (List.mem_append_right _ (List.mem_singleton.mpr rfl)) hstable.1
    | dotdot => exact absurd List.getLast?_concat hlast

/-- A result that ends with a component got it last from there, and what stands behind it cancels
out; and what leads back to the root cancels out. -/
theorem fold_split (comps : List (Component ν)) :
    (comps.foldl (resolveComponent fs) ⟨true, []⟩ = ⟨true, []⟩ → Vanishes fs [] comps) ∧
      ∀ front c, comps.foldl (resolveComponent fs) ⟨true, []⟩ = ⟨true, front ++ [c]⟩ →
        ∃ first second, comps = first ++ c :: second ∧
          first.foldl (resolveComponent fs) ⟨true, []⟩ = ⟨true, front⟩ ∧
          Vanishes fs (front ++ [c]) second := by
  induction hlength : comps.length using Nat.strongRecOn generalizing comps with
  | ind length ih =>
      subst hlength
      rcases List.eq_nil_or_concat comps with rfl | ⟨before, c, rfl⟩
      · refine ⟨fun _ ↦ .nil [], ?_⟩
        intro front c heq
        have hnil : [] = front ++ [c] := congrArg Path.components heq
        exact absurd hnil.symm (List.append_ne_nil_of_right_ne_nil _ (List.cons_ne_nil _ _))
      rw [List.concat_eq_append]
      have hshort : before.length < (before.concat c).length := by simp
      obtain ⟨hroot, hsplit⟩ := ih before.length hshort before rfl
      rw [resolve_concat]
      rcases resolve_cases fs (before.foldl (resolveComponent fs) ⟨true, []⟩) c with
        ⟨rfl, hsame⟩ | ⟨hc, hkept⟩ | ⟨rfl, hlink, hlast, hparent⟩
      · rw [hsame]
        refine ⟨fun heq ↦ (hroot heq).dot, ?_⟩
        intro front last heq
        obtain ⟨first, second, rfl, hfirst, hsecond⟩ := hsplit front last heq
        exact ⟨first, second ++ [.dot], by simp, hfirst, hsecond.dot⟩
      · rw [hkept]
        constructor
        · intro heq
          have hnil : _ ++ [c] = [] := congrArg Path.components heq
          exact absurd hnil (List.append_ne_nil_of_right_ne_nil _ (List.cons_ne_nil _ _))
        · intro front last heq
          obtain ⟨hfront, rfl⟩ := Path.append_inj heq
          exact ⟨before, [], rfl, hfront, .nil _⟩
      · -- the name that is taken away, and what stands between it and this `..`
        have hstable : Stable fs (before.foldl (resolveComponent fs) ⟨true, []⟩) :=
          stable_fold true before
        rw [hparent]
        constructor
        · intro heq
          obtain ⟨n, hname, hfree⟩ := parent_split hstable hlink hlast heq
          obtain ⟨first, second, rfl, hfirst, hsecond⟩ := hsplit [] (.name n) hname
          have hshorter : first.length < ((first ++ .name n :: second).concat .dotdot).length := by
            simp
          have hvanishes := (ih first.length hshorter first rfl).1 hfirst
          exact hvanishes.pair hsecond hfree
        · intro front last heq
          obtain ⟨n, hname, hfree⟩ := parent_split hstable hlink hlast heq
          obtain ⟨first, second, rfl, hfirst, hsecond⟩ := hsplit (front ++ [last]) (.name n) hname
          have hshorter : first.length < ((first ++ .name n :: second).concat .dotdot).length := by
            simp
          obtain ⟨outer, inner, rfl, houter, hinner⟩ :=
            (ih first.length hshorter first rfl).2 front last hfirst
          exact ⟨outer, inner ++ .name n :: second ++ [.dotdot], by simp, houter,
            hinner.pair hsecond hfree⟩

/-! ## Absolute results -/

/-- A relative result stays relative. -/
theorem relative_fold (comps : List (Component ν)) (h : result.rooted = false) :
    (comps.foldl (resolveComponent fs) result).rooted = false := by
  induction comps using List.reverseRecOn with
  | nil => exact h
  | append_singleton comps c ih =>
      rw [resolve_concat]
      rcases resolve_cases fs (comps.foldl (resolveComponent fs) result) c with
        ⟨-, hsame⟩ | ⟨-, hkept⟩ | ⟨-, -, -, hparent⟩
      · rw [hsame]
        exact ih
      · rw [hkept]
        exact ih
      · rw [hparent, Path.parentPath]
        split
        · rfl
        · exact ih

/-- A `..` behind components that cancel out takes the root away. -/
theorem not_absolute {comps : List (Component ν)} (h : ¬ StaysBelow fs comps) :
    (comps.foldl (resolveComponent fs) ⟨true, []⟩).rooted = false := by
  simp only [StaysBelow, not_forall, Classical.not_not] at h
  obtain ⟨front, back, rfl, hvanishes⟩ := h
  have hroot : resolveComponent fs (⟨true, []⟩ : Path ν) .dotdot = .empty := rfl
  rw [List.foldl_append, hvanishes.fold, List.foldl_cons, hroot]
  exact relative_fold back rfl

omit [DecidableEq ν] in
/-- A front of a path that stays below the root stays below the root. -/
theorem StaysBelow.front {comps back : List (Component ν)} (h : StaysBelow fs (comps ++ back)) :
    StaysBelow fs comps := by
  rintro front more rfl
  exact h front (more ++ back) (by simp)

omit [DecidableEq ν] in
/-- Following one more component. -/
theorem denote_concat (rooted : Bool) (comps : List (Component ν)) (c : Component ν) :
    fs.denote ⟨rooted, comps ++ [c]⟩ = (fs.denote ⟨rooted, comps⟩).bind fun dir ↦
      fs.follow dir c := by
  rw [FileSystem.denote, FileSystem.denote, List.foldlM_append]
  simp only [List.foldlM_cons, List.foldlM_nil, bind_pure]
  rfl

omit [DecidableEq ν] in
/-- The parent of a name that is no symbolic link is the directory in front of it. -/
theorem denote_parent {rooted : Bool} {comps : List (Component ν)} {n : ν} {file up : δ}
    (hlink : fs.isSymlink ⟨rooted, comps ++ [.name n]⟩ = false)
    (hfile : fs.denote ⟨rooted, comps ++ [.name n]⟩ = some file) (hup : fs.parent file = some up) :
    fs.denote ⟨rooted, comps⟩ = some up := by
  rw [denote_concat] at hfile
  obtain ⟨dir, hdir, hchild⟩ := Option.bind_eq_some_iff.mp hfile
  have hparent : (⟨rooted, comps ++ [.name n]⟩ : Path ν).parentPath = ⟨rooted, comps⟩ := by
    rw [Path.parentPath, if_neg (List.append_ne_nil_of_right_ne_nil _ (List.cons_ne_nil _ _)),
      List.dropLast_concat]
  have hname : (⟨rooted, comps ++ [.name n]⟩ : Path ν).filename = some (.name n) :=
    List.getLast?_concat
  rw [FileSystem.isSymlink, hname, hparent, hdir] at hlink
  have hfree : fs.link dir n = false := hlink
  rw [hdir, fs.parent_child dir n file up hfree hchild hup]

/-- Below the root the result is absolute and denotes the file of the path. -/
theorem StaysBelow.keeps {comps : List (Component ν)} (h : StaysBelow fs comps) :
    (comps.foldl (resolveComponent fs) ⟨true, []⟩).rooted = true ∧
      ∀ file, fs.denote ⟨true, comps⟩ = some file →
        fs.denote (comps.foldl (resolveComponent fs) ⟨true, []⟩) = some file := by
  induction comps using List.reverseRecOn with
  | nil => exact ⟨rfl, fun file hfile ↦ hfile⟩
  | append_singleton comps c ih =>
      obtain ⟨hrooted, hsame⟩ := ih h.front
      have hstable : Stable fs (comps.foldl (resolveComponent fs) ⟨true, []⟩) :=
        stable_fold true comps
      have hroot : comps.foldl (resolveComponent fs) ⟨true, []⟩ = ⟨true, []⟩ →
          Vanishes fs [] comps := (fold_split comps).1
      rw [resolve_concat]
      generalize hreached : comps.foldl (resolveComponent fs) ⟨true, []⟩ = reached at *
      have hfollow : ∀ file, fs.denote ⟨true, comps ++ [c]⟩ = some file →
          ∃ dir, fs.denote reached = some dir ∧ fs.follow dir c = some file := by
        intro file hfile
        rw [denote_concat] at hfile
        obtain ⟨dir, hdir, hchild⟩ := Option.bind_eq_some_iff.mp hfile
        exact ⟨dir, hsame dir hdir, hchild⟩
      rcases resolve_cases fs reached c with ⟨rfl, hignored⟩ | ⟨-, hkept⟩ |
        ⟨rfl, hlink, hlast, hparent⟩
      · rw [hignored]
        refine ⟨hrooted, ?_⟩
        intro file hfile
        obtain ⟨dir, hdir, hstays⟩ := hfollow file hfile
        obtain ⟨-, -, rfl⟩ := Option.map_eq_some_iff.mp hstays
        exact hdir
      · rw [hkept]
        refine ⟨hrooted, ?_⟩
        intro file hfile
        obtain ⟨dir, hdir, hchild⟩ := hfollow file hfile
        rw [Path.append, denote_concat]
        exact Option.bind_eq_some_iff.mpr ⟨dir, hdir, hchild⟩
      · have hbelow : reached.components ≠ [] := by
          intro hempty
          refine h comps [] rfl (hroot ?_)
          rw [← hrooted, ← hempty]
        have hrest : reached.parentPath = ⟨true, reached.components.dropLast⟩ := by
          rw [Path.parentPath, if_neg hbelow, hrooted]
        obtain ⟨n, hname, hfree⟩ := parent_split hstable hlink hlast hrest
        rw [hparent, hrest]
        refine ⟨rfl, ?_⟩
        intro file hfile
        obtain ⟨dir, hdir, hup⟩ := hfollow file hfile
        rw [hname] at hdir
        exact denote_parent hfree hdir hup

end Resolve

/-- **When resolving preserves an absolute path.** Exactly if none of its `..` stands behind
components that cancel out at the root. -/
theorem preserves_iff {δ ν : Type*} [DecidableEq ν] (fs : FileSystem δ ν)
    (comps : List (Component ν)) : Preserved fs ⟨true, comps⟩ ↔ StaysBelow fs comps := by
  have hresult := resolve_path_eq fs true comps
  constructor
  · intro h
    by_contra hescapes
    have habsolute := h.absolute
    rw [hresult, not_absolute hescapes] at habsolute
    exact Bool.false_ne_true habsolute
  · intro h
    obtain ⟨hrooted, hsame⟩ := h.keeps
    obtain ⟨hdot, hfronts⟩ : Stable fs (comps.foldl (resolveComponent fs) ⟨true, []⟩) :=
      stable_fold true comps
    refine ⟨?_, ?_, ?_, ?_⟩
    · rw [hresult]
      exact hrooted
    · rw [hresult]
      exact hdot
    · intro file hfile
      rw [hresult]
      exact hsame file hfile
    · rw [hresult]
      have hagain := resolve_path_eq fs (comps.foldl (resolveComponent fs) ⟨true, []⟩).rooted
        (comps.foldl (resolveComponent fs) ⟨true, []⟩).components
      exact hagain.trans (hfronts _ [] (List.append_nil _).symm)

/-- The path of the repository's test, over any file system. -/
example {δ : Type} (fs : FileSystem δ String) :
    resolvePath fs ⟨true, [.dot, .name "bla", .dot, .name "bla"]⟩ =
      ⟨true, [.name "bla", .name "bla"]⟩ := rfl

/-- A file system with the root and one directory in it, which is the current one. -/
def oneDirectory : FileSystem Bool Char where
  root := false
  current := true
  parent _ := some false
  child dir n := if dir = false ∧ n = 'a' then some true else none
  link _ _ := false
  parent_root := rfl
  parent_child dir n file up _ hchild hup := by
    have hup' : false = up := Option.some.inj hup
    by_cases hdir : dir = false ∧ n = 'a'
    · rw [← hup', hdir.1]
    · rw [if_neg hdir] at hchild
      exact absurd hchild.symm (Option.some_ne_none file)

/-- The path `/../a` becomes `a`. -/
theorem root_is_lost : ¬ ∀ (fs : FileSystem Bool Char) (comps : List (Component Char)),
    Preserved fs ⟨true, comps⟩ := by
  intro h
  have habsolute := (h oneDirectory [.dotdot, .name 'a']).absolute
  have hrelative : (resolvePath oneDirectory ⟨true, [.dotdot, .name 'a']⟩).rooted = false := rfl
  rw [hrelative] at habsolute
  exact Bool.false_ne_true habsolute

end Smerp.Utils
