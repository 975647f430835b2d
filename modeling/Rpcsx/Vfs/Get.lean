import Rpcsx.Vfs.Mount

/-!
# What a guest path can reach

The stack of `vfs::get` is at every turn the stack of directories above the names read so far, with
`.` and `..` resolved (`stackOf`), so the walk as a whole depends on the normal form of the path
alone. Its result is the path of the deepest mounted directory on the way, followed by the escaped
names below it.
-/

namespace Rpcsx.Vfs

open Lib List

/-! ## Normal forms -/

/-- Resolve `.` and `..`, starting in the directory `list`; the parent of the root is the root. -/
def normalize (list : List Bytes) : List Bytes → List Bytes
  | [] => list
  | name :: rest =>
    if name = dot then normalize list rest
    else if name = dotdot then normalize list.dropLast rest
    else normalize (list ++ [name]) rest

def normalForm (vpath : Bytes) : List Bytes × Bool :=
  (normalize [] (names vpath), vpath.getLast? = some slash)

def IsName (name : Bytes) : Prop := slash ∉ name ∧ name ≠ dot ∧ name ≠ dotdot

variable {name vpath : Bytes}

theorem slash_not_mem_fragmentsFrom (h : slash ∉ name) : ∀ x ∈ fragmentsFrom name vpath, slash ∉ x.1 := by
  induction vpath generalizing name with
  | nil =>
    rw [fragmentsFrom]
    split
    · simp
    · simpa using h
  | cons c rest ih =>
    rw [fragmentsFrom]
    split
    · split
      · exact ih not_mem_nil
      intro x hx
      rcases mem_cons.mp hx with rfl | hx
      · exact h
      · exact ih not_mem_nil x hx
    · next hc =>
      refine ih fun hmem => ?_
      rcases mem_append.mp hmem with hmem | hmem
      · exact h hmem
      · exact hc (mem_singleton.mp hmem).symm

theorem isName_normalize {list rest : List Bytes} (hlist : ∀ name ∈ list, IsName name)
    (hrest : ∀ name ∈ rest, slash ∉ name) : ∀ name ∈ normalize list rest, IsName name := by
  induction rest generalizing list with
  | nil => exact hlist
  | cons name rest ih =>
    have htail : ∀ name ∈ rest, slash ∉ name := fun n hn => hrest n (mem_cons_of_mem _ hn)
    rw [normalize]
    split
    · exact ih hlist htail
    split
    · exact ih (fun n hn => hlist n (mem_of_mem_dropLast hn)) htail
    · next hdot hdotdot =>
      refine ih (fun n hn => ?_) htail
      rcases mem_append.mp hn with hn | hn
      · exact hlist n hn
      rw [mem_singleton.mp hn]
      exact ⟨hrest name mem_cons_self, hdot, hdotdot⟩

theorem isName_normalForm (vpath : Bytes) : ∀ name ∈ (normalForm vpath).1, IsName name := by
  refine isName_normalize (by simp) fun name hname => ?_
  obtain ⟨x, hx, rfl⟩ := mem_map.mp hname
  exact slash_not_mem_fragmentsFrom not_mem_nil x hx

def leftOver (vpath : Bytes) : List (Bytes × Bytes) → Bytes
  | [] => vpath
  | (_, left) :: rest => leftOver left rest

theorem leftOver_ne_nil (name vpath left : Bytes) : (name = [] → left ≠ [] →
      (leftOver left (fragmentsFrom name vpath) ≠ [] ↔ vpath = [] ∨ vpath.getLast? = some slash)) ∧
    (name ≠ [] → (leftOver left (fragmentsFrom name vpath) ≠ [] ↔ vpath.getLast? = some slash)) := by
  induction vpath generalizing name left with
  | nil =>
    refine ⟨fun hname hleft => ?_, fun hname => ?_⟩
    · simp [fragmentsFrom, hname, leftOver, hleft]
    · simp [fragmentsFrom, hname, leftOver]
  | cons c rest ih =>
    have hlast : (c :: rest).getLast? = some slash ↔ rest = [] ∧ c = slash ∨ rest.getLast? = some slash := by
      cases rest <;> simp
    rw [fragmentsFrom, hlast]
    by_cases hc : c = slash
    · refine ⟨fun hname hleft => ?_, fun hname => ?_⟩
      · rw [if_pos hc, if_pos hname, (ih [] _).1 rfl hleft]
        simp [hc]
      rw [if_pos hc, if_neg hname, leftOver, (ih [] _).1 rfl (by simp)]
      simp [hc]
    have hne : name ++ [c] ≠ [] := by simp
    refine ⟨fun hname hleft => ?_, fun hname => ?_⟩
    · rw [if_neg hc, (ih (name ++ [c]) _).2 hne]
      simp [hc]
    rw [if_neg hc, (ih (name ++ [c]) _).2 hne]
    simp [hc]

/-! ## The stack -/

def lookup (root : VfsDirectory) : List Bytes → Option VfsDirectory
  | [] => some root
  | name :: rest => (root.find? name).bind fun dir => lookup dir rest

theorem lookup_concat (root : VfsDirectory) (list : List Bytes) (name : Bytes) :
    lookup root (list ++ [name]) = (lookup root list).bind (·.find? name) := by
  induction list generalizing root with
  | nil => cases h : root.find? name <;> simp [lookup, h]
  | cons first rest ih =>
    rw [cons_append, lookup, lookup]
    cases root.find? first with
    | none => rfl
    | some dir => exact ih dir

def stackOf (root : VfsDirectory) (list : List Bytes) : List (Option VfsDirectory) :=
  ((range (list.length + 1)).map fun i => lookup root (list.take i)).reverse

theorem length_stackOf (root : VfsDirectory) (list : List Bytes) : (stackOf root list).length = list.length + 1 := by
  simp [stackOf]

theorem stackOf_concat (root : VfsDirectory) (list : List Bytes) (name : Bytes) :
    stackOf root (list ++ [name]) = lookup root (list ++ [name]) :: stackOf root list := by
  rw [stackOf, length_append, length_singleton, range_succ, map_append,
    reverse_append, map_singleton, reverse_singleton, singleton_append,
    take_of_length_le (by simp), stackOf]
  congr 2
  refine map_congr_left fun i hi => ?_
  have hi' : i ≤ list.length := Nat.lt_succ_iff.mp (mem_range.mp hi)
  rw [take_append_of_le_length hi']

theorem head_stackOf (root : VfsDirectory) (list : List Bytes) : (stackOf root list).head?.join = lookup root list := by
  rcases eq_nil_or_concat' list with rfl | ⟨init, name, rfl⟩
  · rfl
  rw [stackOf_concat]
  rfl

theorem tail_stackOf (root : VfsDirectory) {list : List Bytes} (h : list ≠ []) :
    (stackOf root list).tail = stackOf root list.dropLast := by
  rcases eq_nil_or_concat' list with rfl | ⟨init, name, rfl⟩
  · exact absurd rfl h
  · rw [stackOf_concat, tail_cons, dropLast_concat]

/-! ## The walk -/

/-- The walk enters a directory where the root of the host is mounted. -/
def passesHost (root : VfsDirectory) (list : List Bytes) : List Bytes → Bool
  | [] => false
  | name :: rest =>
    if name = dot then passesHost root list rest
    else if name = dotdot then passesHost root list.dropLast rest
    else (lookup root (list ++ [name])).any (fun dir => dir.path = [slash]) ||
      passesHost root (list ++ [name]) rest

variable {root : VfsDirectory} {resolvePath : Bytes → Bytes} {configDir : Bytes}

theorem getLoop_eq (list : List Bytes) {rest : List (Bytes × Bytes)}
    (h : passesHost root list (rest.map Prod.fst) = false) :
    getLoop configDir (stackOf root list) list vpath rest = finish (stackOf root (normalize list (rest.map Prod.fst)))
        (normalize list (rest.map Prod.fst)) (leftOver vpath rest) := by
  induction rest generalizing list vpath with
  | nil => rfl
  | cons x rest ih =>
    obtain ⟨name, left⟩ := x
    rw [map_cons, passesHost] at h
    rw [getLoop, map_cons, normalize, leftOver]
    by_cases hdot : name = dot
    · rw [if_pos hdot] at h ⊢
      rw [if_pos hdot]
      exact ih _ h
    rw [if_neg hdot] at h ⊢
    rw [if_neg hdot]
    by_cases hdotdot : name = dotdot
    · rw [if_pos hdotdot] at h ⊢
      rw [if_pos hdotdot, length_stackOf]
      by_cases hroot : list = []
      · subst hroot
        exact ih _ h
      have hlen : ¬ list.length + 1 = 1 := by simpa using hroot
      rw [if_neg hlen, tail_stackOf root hroot]
      exact ih _ h
    rw [if_neg hdotdot] at h ⊢
    rw [if_neg hdotdot, head_stackOf, ← lookup_concat]
    rw [Bool.or_eq_false_iff] at h
    cases hdir : lookup root (list ++ [name]) with
    | none =>
      dsimp only
      rw [← hdir, ← stackOf_concat]
      exact ih _ h.2
    | some dir =>
      have hpath : ¬ dir.path = [slash] := by
        rw [hdir] at h
        simpa using h.1
      dsimp only
      rw [if_neg hpath, ← hdir, ← stackOf_concat]
      exact ih _ h.2

theorem finish_congr {list : List (Option VfsDirectory)} {result : List Bytes} {left left' : Bytes}
    (h : left ≠ [] ↔ left' ≠ []) : finish list result left = finish list result left' := by simp only [finish, h]

/-- A path that does not enter the root of the host is looked up by its normal form. -/
theorem get_eq (habs : isAbsolute vpath) (h : passesHost root [] (names vpath) = false) :
    get configDir root vpath = finish (stackOf root (normalForm vpath).1) (normalForm vpath).1
      (if (normalForm vpath).2 then [slash] else []) := by
  have hvpath : vpath ≠ [] := by
    rintro rfl
    cases habs
  have hleft := (leftOver_ne_nil [] vpath vpath).1 rfl hvpath
  rw [get, if_pos habs]
  refine (getLoop_eq [] h).trans (finish_congr ?_)
  refine hleft.trans ?_
  simp [normalForm, hvpath]

/-! ## The deepest mount -/

/-- `dir` is the deepest directory on the way to `list` that has a host path; `below` names lead to
it. -/
structure DeepestMount (root : VfsDirectory) (list : List Bytes) (dir : VfsDirectory) (below : Nat) :
    Prop where
  le : below ≤ list.length
  found : lookup root (list.take below) = some dir
  mounted : dir.path ≠ []
  deepest : ∀ i dir', below < i → i ≤ list.length → lookup root (list.take i) = some dir' →
    dir'.path = []

theorem latestMount_range (single : Bool) (f : Nat → Option VfsDirectory) (n : Nat) :
    (∃ dir j, latestMount single ((range n).map f).reverse = some (dir, j) ∧ j < n ∧
      f j = some dir ∧ (dir.path ≠ [] ∨ single) ∧ ∀ i dir', j < i → i < n → f i = some dir' → dir'.path = []) ∨
    (latestMount single ((range n).map f).reverse = none ∧ ∀ i dir', i < n → f i = some dir' → dir'.path = []) := by
  induction n with
  | zero => exact Or.inr ⟨rfl, fun i dir' h => absurd h (Nat.not_lt_zero i)⟩
  | succ n ih =>
    rw [range_succ, map_append, reverse_append, map_singleton, reverse_singleton, singleton_append]
    -- the directory on top is skipped
    have hskip : (∀ dir', f n = some dir' → dir'.path = []) →
        latestMount single (f n :: ((range n).map f).reverse) = latestMount single ((range n).map f).reverse →
        (∃ dir j, latestMount single (f n :: ((range n).map f).reverse) = some (dir, j) ∧
          j < n + 1 ∧ f j = some dir ∧ (dir.path ≠ [] ∨ single) ∧
          ∀ i dir', j < i → i < n + 1 → f i = some dir' → dir'.path = []) ∨
        (latestMount single (f n :: ((range n).map f).reverse) = none ∧
          ∀ i dir', i < n + 1 → f i = some dir' → dir'.path = []) := by
      intro htop heq
      rw [heq]
      rcases ih with ⟨dir, j, hsome, hj, hf, hdir, hdeep⟩ | ⟨hnone, hdeep⟩
      · refine Or.inl ⟨dir, j, hsome, by omega, hf, hdir, fun i dir' hji hi hfi => ?_⟩
        rcases Nat.lt_succ_iff_lt_or_eq.mp hi with hi | rfl
        · exact hdeep i dir' hji hi hfi
        · exact htop dir' hfi
      refine Or.inr ⟨hnone, fun i dir' hi hfi => ?_⟩
      rcases Nat.lt_succ_iff_lt_or_eq.mp hi with hi | rfl
      · exact hdeep i dir' hi hfi
      · exact htop dir' hfi
    cases hfn : f n with
    | none =>
      rw [hfn] at hskip
      exact hskip nofun rfl
    | some dir =>
      rw [hfn] at hskip
      by_cases hdir : dir.path ≠ [] ∨ single
      · refine Or.inl ⟨dir, n, ?_, by omega, hfn, hdir, fun i dir' hi hi' => by omega⟩
        rw [latestMount, if_pos hdir]
        simp
      refine hskip (fun dir' h => ?_) (by rw [latestMount, if_neg hdir])
      cases h
      exact not_not.mp fun hne => hdir (Or.inl hne)

/-- The host path of a normal form: that of the deepest mount on the way and the names below it, or
nothing. -/
theorem finish_host (root : VfsDirectory) (list : List Bytes) (left : Bytes) :
    (∃ dir below, DeepestMount root list dir below ∧ (finish (stackOf root list) list left).host = dir.path ++
        merge [slash] ((list.drop below ++ if left ≠ [] then [[]] else []).map (escape · false))) ∨
    ((∀ i dir, i ≤ list.length → lookup root (list.take i) = some dir → dir.path = []) ∧
      (finish (stackOf root list) list left).host = []) := by
  have hrange := latestMount_range (decide ((stackOf root list).length = 1))
    (fun i => lookup root (list.take i)) (list.length + 1)
  rw [← stackOf] at hrange
  have hresult : ∀ result : List Bytes, (if left ≠ [] then result ++ [[]] else result) =
      result ++ if left ≠ [] then [[]] else [] := by
    intro result
    split <;> simp
  rcases hrange with ⟨dir, j, hsome, hj, hf, hdir, hdeep⟩ | ⟨hnone, hdeep⟩
  · by_cases hpath : dir.path = []
    · refine Or.inr ⟨?_, ?_⟩
      · -- only the root is on the stack
        have hsingle : (stackOf root list).length = 1 := by simpa [hpath] using hdir
        rw [length_stackOf] at hsingle
        intro i dir' hi hfi
        obtain rfl : i = j := by omega
        rw [hf] at hfi
        cases hfi
        exact hpath
      simp only [finish, hsome]
      rw [if_pos hpath]
    refine Or.inl ⟨dir, j, ⟨by omega, hf, hpath, fun i dir' hji hi => hdeep i dir' hji (by omega)⟩, ?_⟩
    simp only [finish, hsome]
    rw [if_neg hpath, hresult]
  refine Or.inr ⟨fun i dir' hi => hdeep i dir' (by omega), ?_⟩
  simp only [finish, hnone, if_true]

/-! ## The names that are added -/

theorem slash_not_mem_escapeLoop (escapeSlash : Bool) (h : slash ∉ name) : slash ∉ escapeLoop escapeSlash name := by
  induction name with
  | nil => simp [escapeLoop]
  | cons c rest ih =>
    have hc : slash ≠ c := fun heq => h (heq ▸ mem_cons_self)
    have hrest := ih fun hmem => h (mem_cons_of_mem _ hmem)
    rw [escapeLoop]
    refine fun hmem => (mem_append.mp hmem).elim (fun hmem => ?_) hrest
    rcases escapeChar_cases escapeSlash c rest with ⟨hchar, -⟩ | ⟨c2, c3, hchar, hwide, -⟩ | ⟨-, hchar⟩
    · rw [hchar] at hmem
      exact hc (mem_singleton.mp hmem)
    · rw [hchar] at hmem
      have hhigh : slash ≠ c2 ∧ slash ≠ c3 := by
        simp only [isWide, Bool.or_eq_true, Bool.and_eq_true, decide_eq_true_eq] at hwide
        constructor
        · rintro rfl
          simp [slash] at hwide
        rintro rfl
        simp [slash] at hwide
      simp only [mem_cons, not_mem_nil, or_false] at hmem
      rcases hmem with hmem | hmem | hmem
      · exact absurd hmem (by decide)
      · exact hhigh.1 hmem
      · exact hhigh.2 hmem
    rw [hchar] at hmem
    exact absurd hmem (by decide)

theorem slash_not_mem_escape (escapeSlash : Bool) (h : slash ∉ name) : slash ∉ escape name escapeSlash := by
  rw [escape]
  split
  · exact h
  have hloop := slash_not_mem_escapeLoop escapeSlash h
  split
  · intro hmem
    rcases mem_append.mp hmem with hmem | hmem
    · exact absurd hmem (by decide)
    · exact hloop hmem
  simpa using hloop

/-- A name stays a name when it is escaped. -/
theorem IsName.escape (h : IsName name) : IsName (escape name false) := by
  refine ⟨slash_not_mem_escape false h.1, fun heq => h.2.1 ?_, fun heq => h.2.2 ?_⟩
  · exact escape_injective false (heq.trans (by decide +kernel))
  · exact escape_injective false (heq.trans (by decide +kernel))

/-! ## Tables of directories -/

/-- Every host path in the table has the property. -/
inductive AllPaths (P : Bytes → Prop) : VfsDirectory → Prop
  | mk {path : Bytes} {dirs : List (Bytes × VfsDirectory)} :
    P path → (∀ x ∈ dirs, AllPaths P x.2) → AllPaths P (.mk path dirs)

namespace AllPaths

variable {P : Bytes → Prop} {root dir : VfsDirectory} {name : Bytes} (h : AllPaths P root)

include h

theorem path : P root.path := by
  cases h with
  | mk hpath _ => exact hpath

theorem dirs : ∀ x ∈ root.dirs, AllPaths P x.2 := by
  cases h with
  | mk _ hdirs => exact hdirs

theorem find? (hfind : root.find? name = some dir) : AllPaths P dir := by
  obtain ⟨x, hx, rfl⟩ := Option.map_eq_some_iff.mp hfind
  exact h.dirs x (mem_of_find?_eq_some hx)

variable {list : List Bytes} {path : Bytes}

theorem lookup (hfind : Vfs.lookup root list = some dir) : AllPaths P dir := by
  induction list generalizing root with
  | nil =>
    cases hfind
    exact h
  | cons name rest ih =>
    obtain ⟨child, hchild, hrest⟩ := Option.bind_eq_some_iff.mp hfind
    exact ih (h.find? hchild) hrest

theorem modify {f : VfsDirectory → VfsDirectory} (hf : ∀ dir, AllPaths P dir → AllPaths P (f dir))
    : AllPaths P (root.modify f list) := by
  induction list generalizing root with
  | nil => exact hf root h
  | cons name rest ih =>
    cases h with
    | mk hpath hdirs =>
      refine .mk hpath fun x hx => ?_
      obtain ⟨y, hy, rfl⟩ := mem_map.mp hx
      split
      · exact ih (hdirs y hy)
      · exact hdirs y hy

theorem findOrAdd (hnil : P []) : AllPaths P (root.findOrAdd name) := by
  rw [VfsDirectory.findOrAdd]
  split
  · exact h
  refine .mk h.path fun x hx => ?_
  rcases mem_append.mp hx with hx | hx
  · exact h.dirs x ((takeWhile_sublist _).subset hx)
  rcases mem_cons.mp hx with rfl | hx
  · exact .mk hnil nofun
  · exact h.dirs x ((dropWhile_sublist _).subset hx)

theorem setPath (hpath : P path) : AllPaths P (root.setPath path) := by
  cases h with
  | mk _ hdirs => exact .mk hpath hdirs

theorem mountLoop {resolvePath : Bytes → Bytes} {isDir : Bool} (hnil : P [])
    (hpath : P (mountedPath resolvePath path isDir)) {rest : List Bytes} :
    AllPaths P (mountLoop resolvePath path isDir root list rest) := by
  induction rest generalizing root list with
  | nil => exact h.modify fun _ h => h.setPath hpath
  | cons name rest ih =>
    rw [Vfs.mountLoop]
    split
    · exact ih h
    split
    · exact ih h
    · exact ih (h.modify fun _ h => h.findOrAdd hnil)

theorem unmountChildren : AllPaths P (unmountChildren list root) := by
  induction list generalizing root with
  | nil => exact h
  | cons name rest ih =>
    cases h with
    | mk hpath hdirs =>
      refine .mk hpath fun x hx => ?_
      obtain ⟨y, hy, hx⟩ := mem_flatMap.mp hx
      split at hx
      · split at hx
        · cases hx
        rw [mem_singleton.mp hx]
        exact ih (hdirs y hy)
      rw [mem_singleton.mp hx]
      exact hdirs y hy

end AllPaths

def Op.OfDirectory : Op → Prop
  | .mount _ _ isDir => isDir = true
  | .unmount _ => True

def DirectoryPath (path : Bytes) : Prop := path = [] ∨ path.getLast? = some slash

theorem mountedPath_directory (resolvePath : Bytes → Bytes) (path : Bytes) :
    DirectoryPath (mountedPath resolvePath path true) := by
  refine Or.inr ?_
  simp only [mountedPath, true_and]
  by_cases hroot : path = [slash]
  · rw [if_pos hroot]
    rfl
  rw [if_neg hroot]
  generalize (if resolvePath path = [] then path else resolvePath path) = resolved
  by_cases hlast : resolved.getLast? = some slash
  · rw [if_neg (not_not.mpr hlast)]
    exact hlast
  rw [if_pos hlast]
  simp

theorem step_directory {op : Op} (hop : op.OfDirectory)
    (h : AllPaths DirectoryPath root) : AllPaths DirectoryPath (step resolvePath root op) := by
  cases op with
  | mount vpath path isDir =>
    cases hop
    rw [step, mount]
    split
    · exact h.mountLoop (Or.inl rfl) (mountedPath_directory resolvePath path)
    · exact h
  | unmount vpath =>
    rw [step, unmount]
    split
    · exact h
    · exact h.unmountChildren

theorem run_directory {ops : List Op}
    (hops : ∀ op ∈ ops, op.OfDirectory) : AllPaths DirectoryPath (run resolvePath ops) := by
  have hfold : ∀ (ops : List Op) (root : VfsDirectory), (∀ op ∈ ops, op.OfDirectory) →
      AllPaths DirectoryPath root → AllPaths DirectoryPath (ops.foldl (step resolvePath) root) := by
    intro ops
    induction ops with
    | nil => exact fun root _ h => h
    | cons op ops ih =>
      intro root hops h
      exact ih _ (fun o ho => hops o (mem_cons_of_mem _ ho)) (step_directory (hops op mem_cons_self) h)
  exact hfold ops _ hops (.mk (Or.inl rfl) nofun)

/-! ## Where a guest path leads -/

/-- **The guest stays in its mounts**: a path that is not absolute leads to a place that does not
exist. Any other one that does not enter a mount of the host's root leads to nothing, or to the host
path of the deepest mounted directory on its way followed by the escaped names below it, none of which
is a special one or holds a slash; a mounted directory's path ends with a slash. The answer depends on
the normal form of the path alone. -/
theorem get_stays_in_mounts (resolvePath : Bytes → Bytes) (configDir : Bytes) (ops : List Op) (vpath : Bytes) :
    (isAbsolute vpath = false → (get configDir (run resolvePath ops) vpath).host = nowhere configDir) ∧
    (isAbsolute vpath = true → passesHost (run resolvePath ops) [] (names vpath) = false →
      ((get configDir (run resolvePath ops) vpath).host ≠ [] →
        ∃ dir below, DeepestMount (run resolvePath ops) (normalForm vpath).1 dir below ∧ ∃ added : List Bytes,
            added = ((normalForm vpath).1.drop below ++
              if (normalForm vpath).2 then [[]] else []).map (escape · false) ∧
            (get configDir (run resolvePath ops) vpath).host = dir.path ++ merge [slash] added ∧
            (∀ name ∈ added, slash ∉ name ∧ name ≠ dot ∧ name ≠ dotdot) ∧
            ((∀ op ∈ ops, op.OfDirectory) → dir.path.getLast? = some slash)) ∧
      ∀ vpath', isAbsolute vpath' = true → passesHost (run resolvePath ops) [] (names vpath') = false →
        normalForm vpath' = normalForm vpath →
        get configDir (run resolvePath ops) vpath' = get configDir (run resolvePath ops) vpath) := by
  refine ⟨fun hrel => by rw [get, hrel]; rfl, fun habs hhost => ⟨fun hne => ?_, ?_⟩⟩
  · rw [get_eq habs hhost] at hne ⊢
    rcases finish_host (run resolvePath ops) (normalForm vpath).1
      (if (normalForm vpath).2 then [slash] else []) with ⟨dir, below, hdeep, heq⟩ | ⟨-, heq⟩
    · have hslash : (if (if (normalForm vpath).2 then [slash] else []) ≠ [] then [[]] else []) =
          if (normalForm vpath).2 then [([] : Bytes)] else [] := by
        cases (normalForm vpath).2 <;> rfl
      rw [hslash] at heq
      refine ⟨dir, below, hdeep, _, rfl, heq, fun name hname => ?_, fun hops => ?_⟩
      · obtain ⟨n, hn, rfl⟩ := mem_map.mp hname
        refine IsName.escape ?_
        rcases mem_append.mp hn with hn | hn
        · exact isName_normalForm vpath n (mem_of_mem_drop hn)
        have hnil : n = [] := by
          cases h : (normalForm vpath).2 with
          | false =>
            rw [h] at hn
            cases hn
          | true =>
            rw [h] at hn
            exact mem_singleton.mp hn
        subst hnil
        exact ⟨not_mem_nil, nofun, nofun⟩
      exact ((run_directory hops).lookup hdeep.found).path.resolve_left hdeep.mounted
    exact absurd heq hne
  intro vpath' habs' hhost' hform
  rw [get_eq habs hhost, get_eq habs' hhost', hform]

def sampleOps : List Op :=
  [.mount (ascii "/dev_hdd0") (ascii "/host/hdd0/") true,
    .mount (ascii "/dev_hdd0/game") (ascii "/games") true]

def samplePath : Bytes := ascii "/dev_hdd0/./x/../game//a:b/..//c"

theorem get_stays_in_mounts_game :
    isAbsolute samplePath = true ∧ passesHost (run id sampleOps) [] (names samplePath) = false ∧
    (get (ascii "/cfg/") (run id sampleOps) samplePath).host = ascii "/games/c" ∧
    ∃ dir below, DeepestMount (run id sampleOps) (normalForm samplePath).1 dir below ∧
      dir.path.getLast? = some slash := by
  have habs : isAbsolute samplePath := by decide
  have hhost : passesHost (run id sampleOps) [] (names samplePath) = false := by decide +kernel
  have hget : (get (ascii "/cfg/") (run id sampleOps) samplePath).host = ascii "/games/c" := by decide +kernel
  refine ⟨habs, hhost, hget, ?_⟩
  obtain ⟨dir, below, hdeep, -, -, -, -, hlast⟩ :=
    ((get_stays_in_mounts id (ascii "/cfg/") sampleOps samplePath).2 habs hhost).1 (by rw [hget]; decide)
  refine ⟨dir, below, hdeep, hlast fun op hop => ?_⟩
  rcases mem_pair.mp hop with rfl | rfl <;> rfl

/-- A relative path has a result although nothing is mounted; and the name of a mounted file is made
longer by the names below it, so the guest reaches a file beside the one that was mounted. -/
theorem results_outside_mounts : (get (ascii "/cfg/") (run id []) (ascii "x")).host =
      ascii "/cfg/delete_this_dir.../delete_this..." ∧
    (get (ascii "/cfg/") (run id [.mount (ascii "/disc") (ascii "/host/game.iso") false])
      (ascii "/disc/x")).host = ascii "/host/game.isox" := by decide +kernel

end Rpcsx.Vfs
