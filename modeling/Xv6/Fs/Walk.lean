import Mathlib.Data.List.DropRight
import Mathlib.Tactic.Abel
import Xv6.Fs.Lifetime
import Xv6.Fs.Tree

namespace Xv6
namespace Fs

open Foundation Function Store
open Buffer (Block Stop)

/-!
# Following a path

A walk takes and gives up one reference at a time and ends with one reference
to the inode it has found, or with none.  The references of others are counted
by a function `base`; the inodes they belong to stay as they are, and of the
other inodes the walk frees at most some without links.

A walk that starts in a linked inode of a closed table finds linked inodes
only.  It follows no entry whose inode is free, and `ilock` does not panic.
A walk from a removed directory has no such guarantee: its `".."` may name an
inode that was freed.
-/

/-! ## Counting references -/

section

variable {base : Index → Int}

theorem add_single_nonneg (nonneg : ∀ other, 0 ≤ base other) (ip other : Index) :
    0 ≤ (base + Pi.single ip 1 : Index → Int) other := by
  have counted := nonneg other
  rw [Pi.add_apply, Pi.single_apply]
  split <;> omega

theorem add_single_pos (nonneg : ∀ other, 0 ≤ base other) (ip : Index) :
    0 < (base + Pi.single ip 1 : Index → Int) ip := by
  have counted := nonneg ip
  rw [Pi.add_apply, Pi.single_eq_same]
  omega

theorem add_single_pos_of_pos (ip : Index) {other : Index} (positive : 0 < base other) :
    0 < (base + Pi.single ip 1 : Index → Int) other := by
  rw [Pi.add_apply, Pi.single_apply]
  split <;> omega

end

/-! ## What a call leaves alone -/

/-- If the call is live, no entry that it has followed names a free inode. -/
def Followed (live : Prop) (before after : Store) : Prop :=
  ∀ lookup ∈ after.lookups, lookup ∈ before.lookups ∨ (live → lookup.type ≠ 0)

/-- Nothing has happened but freeing inodes to which nobody in `base` has a
reference. -/
structure Passes (live : Prop) (base : Index → Int) (before after : Store) : Prop where
  sb : after.sb = before.sb
  inOp : after.inOp = before.inOp
  inum : ∀ other, 0 < base other → (after.icache other).inum = (before.icache other).inum
  kept : ∀ other, 0 < base other →
    after.nodes (before.icache other).inum = before.nodes (before.icache other).inum
  nodes : Collects before.nodes after.nodes
  followed : Followed live before after

/-- The resources of the file system are exhausted. -/
def Exhausted (stop : Stop) : Prop :=
  stop = .panic .ballocOutOfBlocks ∨ stop = .panic .iallocNoInodes ∨
    stop = .panic .igetNoInodes ∨ stop = .panic .dirlink

/-- Why a call may stop.  The second reason needs a walk from a removed
directory, and the last a table of nodes that is not a tree. -/
structure Stops (live shaped : Prop) (before : Store) (stop : Stop) (after : Store) : Prop where
  reason : Exhausted stop ∨ stop = .panic .ilockNoType ∧ ¬ live ∨
    ¬ shaped ∧ (stop = .asleep ∨ stop = .panic .unlinkNlink)
  followed : Followed live before after

variable {stop : Stop} {store middle after : Store} {inum : Nat}

section

variable {live shaped : Prop} {base : Index → Int} {before : Store} {ip : Index}

theorem Followed.of_eq (lookups : after.lookups = before.lookups) : Followed live before after := by
  intro lookup member
  rw [lookups] at member
  exact Or.inl member

theorem Followed.of_noted {noted : Lookup} (lookups : after.lookups = before.lookups ++ [noted])
    (typed : live → noted.type ≠ 0) : Followed live before after := by
  intro lookup member
  rw [lookups] at member
  rcases List.mem_append.mp member with old | new
  · exact Or.inl old
  · rw [List.mem_singleton.mp new]
    exact Or.inr typed

theorem Followed.trans (early : Followed live before middle) (late : Followed live middle after) :
    Followed live before after := by
  intro lookup member
  rcases late lookup member with inMiddle | typed
  · exact early lookup inMiddle
  · exact Or.inr typed

theorem Stops.later (followed : Followed live before middle)
    (stops : Stops live shaped middle stop after) : Stops live shaped before stop after :=
  ⟨stops.reason, followed.trans stops.followed⟩

theorem Stops.exhausted (exhausted : Exhausted stop)
    (followed : Followed live before after) : Stops live shaped before stop after :=
  ⟨Or.inl exhausted, followed⟩

namespace Passes

theorem of_same (sb : after.sb = before.sb) (inOp : after.inOp = before.inOp)
    (lookups : after.lookups = before.lookups)
    (inum : ∀ other, (after.icache other).inum = (before.icache other).inum)
    (nodes : after.nodes = before.nodes) : Passes live base before after := by
  refine ⟨sb, inOp, fun other _ => inum other, ?_, ?_, Followed.of_eq lookups⟩
  · intro other _
    rw [nodes]
  · rw [nodes]
    exact Collects.refl _

theorem refl (store : Store) : Passes live base store store :=
  of_same rfl rfl rfl (fun _ => rfl) rfl

theorem trans (early : Passes live base before middle) (late : Passes live base middle after) :
    Passes live base before after := by
  refine ⟨late.sb.trans early.sb, late.inOp.trans early.inOp, ?_, ?_,
    early.nodes.trans late.nodes, early.followed.trans late.followed⟩
  · intro other positive
    rw [late.inum other positive, early.inum other positive]
  · intro other positive
    have kept := late.kept other positive
    rw [early.inum other positive] at kept
    rw [kept, early.kept other positive]

theorem mono {fewer : Index → Int} (passes : Passes live base before after)
    (le : ∀ other, 0 < fewer other → 0 < base other) : Passes live fewer before after :=
  ⟨passes.sb, passes.inOp, fun other positive => passes.inum other (le other positive),
    fun other positive => passes.kept other (le other positive), passes.nodes, passes.followed⟩

theorem locking (store : Store) (ip : Index) : Passes live base store (store.locking ip) :=
  of_same rfl rfl rfl inum_locking rfl

theorem unlocking (store : Store) (ip : Index) : Passes live base store (store.unlocking ip) :=
  of_same rfl rfl rfl inum_unlocking rfl

end Passes

theorem Released.passes (released : Released base before after ip) (intact : Intact before)
    (refs : before.refs = base + Pi.single ip 1) : Passes live base before after := by
  have inum : ∀ other, 0 < base other → (after.icache other).inum = (before.icache other).inum := by
    intro other positive
    rw [released.entry other positive]
  refine ⟨released.sb, released.inOp, inum, ?_, ?_, Followed.of_eq released.lookups⟩
  · intro other positive
    rcases released.nodes with same | ⟨last, _, _, freed⟩
    · rw [same]
    · have different : other ≠ ip := by
        intro isIp
        rw [isIp, last] at positive
        exact absurd positive (Int.lt_irrefl 0)
      have heldIp : 0 < before.refs ip := by
        rw [refs, Pi.add_apply, Pi.single_eq_same]
        omega
      have held : 0 < before.refs other := by
        rw [refs, Pi.add_apply, Pi.single_eq_of_ne different, Int.add_zero]
        exact positive
      rw [freed, update_of_ne (intact.inum_ne heldIp different held)]
  · rcases released.nodes with same | ⟨_, _, unlinked, freed⟩
    · rw [same]
      exact Collects.refl _
    · intro inum
      rw [freed]
      by_cases isInum : inum = (before.icache ip).inum
      · subst isInum
        rw [update_self]
        exact Or.inr ⟨unlinked, rfl⟩
      · rw [update_of_ne isInum]
        exact Or.inl rfl

/-- A reference was given up, and `base` is left. -/
structure Left (live : Prop) (base : Index → Int) (before after : Store) (locks : Index → Bool) :
    Prop where
  consistent : Consistent after
  refs : after.refs = base
  locks : after.locks = locks
  passes : Passes live base before after

section

variable (live : Prop) (consistent : Consistent store) (refs : store.refs = base + Pi.single ip 1)
include consistent refs

theorem iput_left (nonneg : 0 ≤ base ip)
    (unlocked : store.locks ip = false) (inOp : store.inOp = true) :
    Wp (iput ip) store fun _ after => Left live base store after store.locks := by
  refine (iput_wp consistent refs nonneg (fun _ => unlocked) inOp).imp ?_
  intro _ after released
  exact ⟨released.consistent, released.refs, released.locks,
    released.passes consistent.toIntact refs⟩

theorem iunlockput_left (nonneg : 0 ≤ base ip)
    (locked : store.locks ip = true) (inOp : store.inOp = true) :
    Wp (iunlockput ip) store
      fun _ after => Left live base store after (update store.locks ip false) := by
  refine (iunlockput_wp consistent refs nonneg locked inOp).imp ?_
  intro _ after released
  have held : 0 < store.refs ip := by
    rw [refs, Pi.add_apply, Pi.single_eq_same]
    omega
  have refsAgain : (store.unlocking ip).refs = base + Pi.single ip 1 := by
    rw [refs_unlocking, refs]
  refine ⟨released.consistent, released.refs, ?_, ?_⟩
  · rw [released.locks, locks_unlocking]
  · exact (Passes.unlocking store ip).trans
      (released.passes (consistent.unlocking held).toIntact refsAgain)

end

theorem Got.passes {dir : Nat} {entry : Dirent} (got : Got (before.noted dir entry) after ip inum)
    (typed : live → (before.nodes entry.inum).type ≠ 0) : Passes live before.refs before after := by
  have nodes : after.nodes = before.nodes := got.nodes
  have same : after.sb = before.sb ∧ after.inOp = before.inOp ∧
      after.lookups = (before.noted dir entry).lookups := by
    rw [got.store]
    exact ⟨rfl, rfl, rfl⟩
  rcases same with ⟨sb, inOp, lookups⟩
  refine ⟨sb, inOp, ?_, ?_, ?_, ?_⟩
  · intro other positive
    rw [got.entry other positive]
    rfl
  · intro other _
    rw [nodes]
  · rw [nodes]
    exact Collects.refl _
  · intro lookup member
    rw [lookups] at member
    rcases List.mem_append.mp member with old | new
    · exact Or.inl old
    · rw [List.mem_singleton.mp new]
      exact Or.inr typed

end

/-! ## Elements of a path -/

/-- The pieces of a path between slashes that are not empty. -/
def elements (path : Path) : List (List UInt8) :=
  (path.splitOn slash).filter (· ≠ [])

theorem elements_slash (path : Path) : elements (slash :: path) = elements path := by
  have split : (slash :: path).splitOn slash = [] :: path.splitOn slash :=
    List.splitOn_append_cons_self_of_not_mem List.not_mem_nil path
  rw [elements, split, List.filter_cons_of_neg (by simp), elements]

theorem elements_dropWhile (path : Path) :
    elements (path.dropWhile (· = slash)) = elements path := by
  induction path with
  | nil => rfl
  | cons c rest ih =>
    by_cases isSlash : c = slash
    · rw [isSlash, List.dropWhile_cons_of_pos (by simp), ih, elements_slash]
    · rw [List.dropWhile_cons_of_neg (by simpa using isSlash)]

variable {rest path : Path}

theorem elements_append {element : Path} (nonempty : element ≠ []) (piece : slash ∉ element)
    (ends : ∀ c ∈ rest.head?, c = slash) : elements (element ++ rest) = element :: elements rest := by
  have kept : ∀ others, List.filter (fun piece => decide (piece ≠ [])) (element :: others) =
      element :: others.filter (· ≠ []) := fun _ => List.filter_cons_of_pos (decide_eq_true nonempty)
  cases rest with
  | nil =>
    rw [List.append_nil, elements, List.splitOn_eq_singleton piece, kept]
    rfl
  | cons c others =>
    rw [ends c rfl, elements_slash, elements, List.splitOn_append_cons_self_of_not_mem piece, kept,
      elements]

theorem skipelem_cases (path : Path) (array : List UInt8) :
    skipelem path array = none ∧ elements path = [] ∨
      ∃ element rest, skipelem path array = some (copyElement array element, rest) ∧
        elements path = element :: elements rest ∧ element ⊆ path ∧ rest ⊆ path := by
  cases skipped : skipelem path array with
  | none =>
    refine Or.inl ⟨rfl, ?_⟩
    rw [skipelem] at skipped
    split at skipped
    · rename_i stripped
      rw [← elements_dropWhile, stripped]
      rfl
    · cases skipped
  | some found =>
    rcases skipelem_eq_some skipped with ⟨element, others, stripped, isName, isRest, nonempty,
      piece, ends⟩
    have within : element ++ others ⊆ path := by
      rw [← stripped]
      exact (List.dropWhile_sublist _).subset
    rw [List.append_subset] at within
    refine Or.inr ⟨element, found.2, by rw [← isName], ?_, within.1, ?_⟩
    · rw [← elements_dropWhile, stripped, elements_append nonempty piece ends, isRest,
        elements_dropWhile]
    · rw [isRest]
      exact List.Subset.trans (List.dropWhile_sublist _).subset within.2

variable {name : Name} {array : List UInt8}

theorem eq_nil_of_elements {copied : List UInt8}
    (skipped : skipelem path array = some (copied, rest)) (none : elements rest = []) : rest = [] := by
  rcases skipelem_eq_some skipped with ⟨_, others, _, _, isRest, _⟩
  rcases skipelem_cases rest array with ⟨nothing, _⟩ | ⟨_, _, _, some, _⟩
  · rw [skipelem] at nothing
    split at nothing
    · rename_i ended
      rwa [isRest, List.dropWhile_idempotent, ← isRest] at ended
    · cases nothing
  · rw [none] at some
    cases some

/-! ## Resolution -/

section

variable (nodes : Nat → Node) (start : Nat) (names : List Name)

/-- Look names up one after another, each in the directory found so far. -/
def resolve : Option Nat :=
  names.foldlM (fun inum name =>
    if (nodes inum).type = T_DIR then (nodes inum).lookup name else none) start

/-- The directory in which the last of the names is to be looked up, and that
name. -/
def resolveParent : Option (Nat × Name) := do
  let dir ← resolve nodes start names.dropLast
  if (nodes dir).type = T_DIR then names.getLast?.map (dir, ·) else none

end

/-- The names that `skipelem` leaves in `name`, one after another. -/
def elementNames (path : Path) : List Name :=
  (elements path).map (List.take DIRSIZ)

/-- Some name but the last is to be looked up in an inode that is free. -/
def Stray (nodes : Nat → Node) (start : Nat) (names : List Name) : Prop :=
  ∃ before name after inum, names = before ++ name :: after ∧
    resolve nodes start before = some inum ∧ (nodes inum).type = 0

section

variable (parent : Bool) (nodes : Nat → Node) (start : Nat)

theorem resolve_cons (name : Name) (rest : List Name) : resolve nodes start (name :: rest) =
    (if (nodes start).type = T_DIR then (nodes start).lookup name else none).bind
      fun next => resolve nodes next rest :=
  List.foldlM_cons

theorem not_stray_nil : ¬ Stray nodes start [] := by
  rintro ⟨before, name, after, inum, isNil, _⟩
  exact List.append_ne_nil_of_right_ne_nil before (List.cons_ne_nil name after) isNil.symm

theorem stray_cons (name : Name) (rest : List Name) : Stray nodes start (name :: rest) ↔
    (nodes start).type = 0 ∨ (nodes start).type = T_DIR ∧
      ∃ next, (nodes start).lookup name = some next ∧ Stray nodes next rest := by
  constructor
  · rintro ⟨before, other, after, inum, split, resolved, free⟩
    cases before with
    | nil =>
      cases resolved
      exact Or.inl free
    | cons first others =>
      cases split
      rw [resolve_cons] at resolved
      rcases Option.bind_eq_some_iff.mp resolved with ⟨next, looked, resolved⟩
      split at looked
      · rename_i isDir
        exact Or.inr ⟨isDir, next, looked, others, other, after, inum, rfl, resolved, free⟩
      · cases looked
  · rintro (free | ⟨isDir, next, looked, before, other, after, inum, split, resolved, free⟩)
    · exact ⟨[], name, rest, start, rfl, rfl, free⟩
    · refine ⟨name :: before, other, after, inum, by rw [split]; rfl, ?_, free⟩
      rw [resolve_cons, if_pos isDir, looked]
      exact resolved

/-- What `namex` is to find. -/
def target (names : List Name) : Option (Nat × Name) :=
  if parent then resolveParent nodes start names else (resolve nodes start names).map (·, [])

theorem target_nil : target parent nodes start [] = if parent then none else some (start, []) := by
  simp [target, resolveParent, resolve]

theorem target_cons (name : Name) (rest : List Name) :
    target parent nodes start (name :: rest) =
      if (nodes start).type = T_DIR then
        if parent = true ∧ rest = [] then some (start, name)
        else ((nodes start).lookup name).bind fun next => target parent nodes next rest
      else none := by
  have first := resolve_cons nodes start name
  by_cases isDir : (nodes start).type = T_DIR
  · simp only [isDir, if_true] at first ⊢
    cases parent with
    | false => simp [target, first, Option.map_bind]
    | true =>
      cases rest with
      | nil => simp [target, resolveParent, resolve, isDir]
      | cons second others => simp [target, resolveParent, first, Option.bind_assoc]
  · simp only [isDir, if_false] at first ⊢
    cases parent with
    | false => simp [target, first]
    | true =>
      cases rest with
      | nil => simp [target, resolveParent, resolve, isDir]
      | cons second others => simp [target, resolveParent, first]

end

/-! ## The walk -/

/-- What a walk returns. -/
structure Walked (live : Prop) (base : Index → Int) (parent : Bool) (before : Store)
    (result : Option (Index × Name)) (after : Store) : Prop where
  consistent : Consistent after
  unlocked : after.locks = fun _ => false
  passes : Passes live base before after
  refs : after.refs = base + (result.elim 0 fun found => Pi.single found.1 1)
  linked : ∀ found ∈ result, live → (after.nodes (after.icache found.1).inum).Linked
  name : ∀ found ∈ result, parent = true →
    (after.nodes (after.icache found.1).inum).type = T_DIR ∧ found.2.length ≤ DIRSIZ ∧ 0 ∉ found.2

variable {parent : Bool}

section

variable {live shaped : Prop} {base : Index → Int} {ip : Index}

theorem Walked.later {before : Store}
    {result : Option (Index × Name)} (passes : Passes live base before middle)
    (walked : Walked live base parent middle result after) :
    Walked live base parent before result after :=
  ⟨walked.consistent, walked.unlocked, passes.trans walked.passes, walked.refs, walked.linked,
    walked.name⟩

theorem Released.walked (released : Released base store after ip)
    (intact : Intact store) (refs : store.refs = base + Pi.single ip 1)
    (unlocked : store.locks = fun _ => false) : Walked live base parent store none after := by
  refine ⟨released.consistent, ?_, released.passes intact refs, ?_, ?_, ?_⟩
  · rw [released.locks, unlocked]
  · rw [released.refs, Option.elim_none, add_zero]
  · intro found impossible
    cases impossible
  · intro found impossible
    cases impossible

/-- A walk has a reference to an entry of a directory that it has locked. -/
structure Entered (live : Prop) (base : Index → Int) (store middle : Store) (dp ip : Index)
    (inum : Nat) : Prop where
  consistent : Consistent middle
  nodes : middle.nodes = store.nodes
  inOp : middle.inOp = true
  refs : middle.refs = base + Pi.single ip 1 + Pi.single dp 1
  locks : middle.locks = update (fun _ => false) dp true
  isInum : (middle.icache ip).inum = inum
  passes : Passes live base store middle
  linked : live → (store.nodes inum).Linked

/-- The state of a walk between two rounds. -/
structure Walking (live : Prop) (base : Index → Int) (store : Store) (ip : Index) : Prop where
  consistent : Consistent store
  unlocked : store.locks = fun _ => false
  inOp : store.inOp = true
  refs : store.refs = base + Pi.single ip 1
  nonneg : ∀ other, 0 ≤ base other
  closed : live → Closed store.nodes
  linked : live → (store.nodes (store.icache ip).inum).Linked

namespace Walking

variable {stops : Stop → Store → Prop} (walking : Walking live base store ip)
include walking

theorem held : 0 < store.refs ip := by
  rw [walking.refs]
  exact add_single_pos walking.nonneg ip

theorem unlocked_ip : store.locks ip = false := by
  rw [walking.unlocked]

/-- `ilock` in a walk panics only at a free inode, and then the walk is not
live. -/
theorem ilock_stray_wp :
    Wp (ilock ip) store
      (fun _ after => after = store.locking ip ∧ (store.nodes (store.icache ip).inum).type ≠ 0)
      fun stop after => Stops live shaped store stop after ∧ stop = .panic .ilockNoType ∧
        (store.nodes (store.icache ip).inum).type = 0 := by
  refine (Fs.ilock_wp walking.consistent.toIntact walking.held walking.unlocked_ip).mono
    (fun _ _ => id) ?_
  rintro stop after ⟨isStop, lookups, free⟩
  refine ⟨⟨Or.inr (Or.inl ⟨isStop, ?_⟩), Followed.of_eq lookups⟩, isStop, free⟩
  intro isLive
  exact (walking.linked isLive).1 free

theorem ilock_wp :
    Wp (ilock ip) store
      (fun _ after => after = store.locking ip ∧ (store.nodes (store.icache ip).inum).type ≠ 0)
      (Stops live shaped store) :=
  walking.ilock_stray_wp.mono (fun _ _ => id) fun _ _ => And.left

theorem locking (typed : (store.nodes (store.icache ip).inum).type ≠ 0) :
    Consistent (store.locking ip) ∧ (store.locking ip).locks ip = true ∧
      0 < (store.locking ip).refs ip :=
  ⟨walking.consistent.locking walking.held typed, locks_locking_self, refs_locking_pos walking.held⟩

theorem unlocked_again : ((store.locking ip).unlocking ip).locks = fun _ => false := by
  rw [locks_unlocking, locks_locking, update_idem, ← walking.unlocked_ip,
    update_eq_self, walking.unlocked]

theorem fails_wp (parent : Bool) (typed : (store.nodes (store.icache ip).inum).type ≠ 0) :
    Wp (iunlockput ip) (store.locking ip)
      (fun _ => Walked live base parent store none) stops := by
  rcases walking.locking typed with ⟨consistent, locked, held⟩
  have refs : (store.locking ip).refs = base + Pi.single ip 1 := by
    rw [refs_locking, walking.refs]
  refine (iunlockput_wp consistent refs (walking.nonneg ip) locked walking.inOp).total ?_
  intro _ after released
  have refsAgain : ((store.locking ip).unlocking ip).refs = base + Pi.single ip 1 := by
    rw [refs_unlocking, refs]
  exact (released.walked (consistent.unlocking held).toIntact refsAgain walking.unlocked_again).later
    ((Passes.locking store ip).trans (Passes.unlocking _ ip))

theorem ends_wp
    (isDir : (store.nodes (store.icache ip).inum).type = T_DIR) (short : name.length ≤ DIRSIZ)
    (nonzero : 0 ∉ name) :
    Wp (iunlock ip) (store.locking ip)
      (fun _ after => Walked live base true store (some (ip, name)) after ∧
        (after.icache ip).inum = (store.icache ip).inum)
      stops := by
  have typed := ne_zero_of_isDir isDir
  rcases walking.locking typed with ⟨consistent, locked, held⟩
  refine (iunlock_wp held locked).total ?_
  intro _ after isAfter
  subst isAfter
  have inum : (((store.locking ip).unlocking ip).icache ip).inum = (store.icache ip).inum := by
    rw [inum_unlocking, inum_locking]
  refine ⟨⟨consistent.unlocking held, walking.unlocked_again,
    (Passes.locking store ip).trans (Passes.unlocking _ ip), ?_, ?_, ?_⟩, inum⟩
  · rw [refs_unlocking, refs_locking, walking.refs]
    rfl
  · intro found isFound
    cases isFound
    rw [inum]
    exact walking.linked
  · intro found isFound _
    cases isFound
    rw [inum]
    exact ⟨isDir, short, nonzero⟩

section

variable {next : Index} {position : Nat} (isDir : (store.nodes (store.icache ip).inum).type = T_DIR)
  (isEntry : (store.nodes (store.icache ip).inum).entries[position]? = some ⟨inum, name⟩)
  (nonzero : inum ≠ 0)
  (got : Got ((store.locking ip).noted (store.icache ip).inum ⟨inum, name⟩) middle next inum)
include isDir isEntry nonzero got

/-- An entry was found in a directory that the walk has locked. -/
theorem entered : Entered live base store middle ip next inum := by
  have typed := ne_zero_of_isDir isDir
  have noted : Consistent ((store.locking ip).noted (store.icache ip).inum ⟨inum, name⟩) :=
    (walking.locking typed).1.unread
  have linked : live → (store.nodes inum).Linked := by
    intro isLive
    have dirLive := (walking.linked isLive).live isDir
    exact (walking.closed isLive).linked _ dirLive _ (List.mem_of_getElem? isEntry) nonzero
  refine ⟨got.consistent noted, got.nodes, ?_, ?_, ?_, got.inum, ?_, linked⟩
  · rw [got.store]
    exact walking.inOp
  · have same : ((store.locking ip).noted (store.icache ip).inum ⟨inum, name⟩).refs = store.refs :=
      refs_locking
    rw [got.refs, same, walking.refs]
    abel
  · have same : ((store.locking ip).noted (store.icache ip).inum ⟨inum, name⟩).locks =
        (store.locking ip).locks := rfl
    rw [got.locks noted.toIntact, same, locks_locking, walking.unlocked]
  · apply (Passes.locking store ip).trans
    apply Passes.mono (got.passes fun isLive => (linked isLive).1)
    intro other positive
    rw [refs_locking, walking.refs]
    exact add_single_pos_of_pos ip positive

theorem next_wp :
    Wp (iunlockput ip) middle
      (fun _ after => Walking live base after next ∧ Passes live base store after ∧
        (after.icache next).inum = inum)
      stops := by
  have entered := walking.entered isDir isEntry nonzero got
  have lockedIp : middle.locks ip = true := by
    rw [entered.locks, update_self]
  have nonneg := add_single_nonneg walking.nonneg next
  refine (iunlockput_left live entered.consistent entered.refs (nonneg ip) lockedIp
    entered.inOp).total ?_
  intro _ after left
  have passes : Passes live base store after := by
    apply entered.passes.trans
    apply left.passes.mono
    intro other positive
    exact add_single_pos_of_pos next positive
  have held := add_single_pos walking.nonneg next
  have isInum : (after.icache next).inum = inum := by
    rw [left.passes.inum next held, entered.isInum]
  refine ⟨⟨left.consistent, ?_, ?_, left.refs, walking.nonneg, ?_, ?_⟩, passes, isInum⟩
  · rw [left.locks, entered.locks, update_idem, update_eq_self_iff]
  · rw [left.passes.inOp, entered.inOp]
  · intro isLive
    exact passes.nodes.closed (walking.closed isLive)
  · intro isLive
    have kept := left.passes.kept next held
    rw [entered.isInum] at kept
    rw [isInum, kept, entered.nodes]
    exact entered.linked isLive

end

section

variable (name : Name) (isDir : (store.nodes (store.icache ip).inum).type = T_DIR)
include isDir

/-- `dirlookup` in a directory that the walk has locked stops only if the inode
table is full. -/
theorem dirlookup_full_wp :
    Wp (dirlookup ip name) (store.locking ip)
      (fun result after => LookedUp (store.locking ip) ip name result after ∧
        (result.map fun found => (after.icache found.1).inum) =
          (store.nodes (store.icache ip).inum).lookup name)
      fun stop after => Stops live shaped store stop after ∧ stop = .panic .igetNoInodes ∧
        after.TableFull := by
  have typed := ne_zero_of_isDir isDir
  rcases walking.locking typed with ⟨consistent, isLocked, held⟩
  have isDirStill : ((store.locking ip).nodes ((store.locking ip).icache ip).inum).type = T_DIR := by
    rw [inum_locking]
    exact isDir
  refine (Fs.dirlookup_wp consistent.toIntact held isLocked isDirStill).mono ?_ ?_
  · rw [inum_locking]
    exact fun _ _ => id
  rintro stop middle ⟨isStop, full, inum, isNonzero, member, isMiddle⟩
  rw [inum_locking] at member isMiddle
  refine ⟨Stops.exhausted (Or.inr (Or.inr (Or.inl isStop)))
    (Followed.of_noted (congrArg Store.lookups isMiddle) fun isLive => ?_), isStop, full⟩
  have dirLive := (walking.linked isLive).live isDir
  exact ((walking.closed isLive).linked _ dirLive _ member isNonzero).1

theorem dirlookup_wp :
    Wp (dirlookup ip name) (store.locking ip)
      (fun result after => LookedUp (store.locking ip) ip name result after ∧
        (result.map fun found => (after.icache found.1).inum) =
          (store.nodes (store.icache ip).inum).lookup name)
      (Stops live shaped store) :=
  (walking.dirlookup_full_wp name isDir).mono (fun _ _ => id) fun _ _ => And.left

end

end Walking

/-- Every inode without links is held by somebody else, so that the walk frees
nothing. -/
def Guarded (base : Index → Int) (store : Store) : Prop :=
  ∀ inum, (store.nodes inum).type ≠ 0 → (store.nodes inum).nlink = 0 →
    ∃ ip, 0 < base ip ∧ (store.icache ip).inum = inum

theorem Consistent.guarded (consistent : Consistent store) : Guarded store.refs store := by
  intro inum typed unlinked
  rcases consistent.collected inum typed unlinked with ⟨ip, held, _, isInum⟩
  exact ⟨ip, held, isInum⟩

theorem Passes.nodes_eq {before : Store} (passes : Passes live base before after)
    (guarded : Guarded base before) : after.nodes = before.nodes := by
  funext inum
  rcases passes.nodes inum with same | ⟨unlinked, freed⟩
  · exact same
  · by_cases typed : (before.nodes inum).type = 0
    · rw [freed]
      apply Node.ext
      · exact typed.symm
      · exact unlinked.symm
      · exact (if_neg fun isDir => ne_zero_of_isDir isDir typed).symm
    · rcases guarded inum typed unlinked with ⟨ip, held, rfl⟩
      exact passes.kept ip held

theorem Guarded.later {before : Store} (guarded : Guarded base before)
    (passes : Passes live base before after) : Guarded base after := by
  intro inum typed unlinked
  rw [passes.nodes_eq guarded] at typed unlinked
  rcases guarded inum typed unlinked with ⟨ip, held, isInum⟩
  exact ⟨ip, held, (passes.inum ip held).trans isInum⟩

/-- Why a walk stops: every entry of the inode table is in use, or a name is to be
looked up in a free inode. -/
def StopsWalk (nodes : Nat → Node) (start : Nat) (names : List Name) (stop : Stop)
    (after : Store) : Prop :=
  stop = .panic .igetNoInodes ∧ after.TableFull ∨
    stop = .panic .ilockNoType ∧ Stray nodes start names

/-- The loop of `namex`.  It looks no name up in a free inode, and it finds what
the names lead to. -/
theorem namexFrom_wp (shaped : Prop) {fuel : Nat}
    (walking : Walking live base store ip) (enough : path.length < fuel) (nonzero : 0 ∉ path)
    (size : array.length = DIRSIZ) (guarded : Guarded base store) :
    Wp (namexFrom parent fuel ip path array) store
      (fun result after => Walked live base parent store result after ∧
        (result.map fun found => ((after.icache found.1).inum, found.2)) =
          target parent store.nodes (store.icache ip).inum (elementNames path) ∧
        ¬ Stray store.nodes (store.icache ip).inum (elementNames path))
      fun stop after => Stops live shaped store stop after ∧
        StopsWalk store.nodes (store.icache ip).inum (elementNames path) stop after := by
  induction fuel generalizing store ip path array with
  | zero => omega
  | succ fuel ih =>
    rw [namexFrom, elementNames]
    rcases skipelem_cases path array with ⟨skipped, isElements⟩ | ⟨element, rest, skipped,
      isElements, elementWithin, restWithin⟩
    · rw [skipped, isElements, List.map_nil, target_nil]
      have notStray := not_stray_nil store.nodes (store.icache ip).inum
      cases parent with
      | true =>
        simp only [if_true, wp_bind]
        refine (iput_wp walking.consistent walking.refs (walking.nonneg ip)
          (fun _ => walking.unlocked_ip) walking.inOp).total ?_
        intro _ after released
        rw [wp_pure]
        exact ⟨released.walked walking.consistent.toIntact walking.refs walking.unlocked, rfl,
          notStray⟩
      | false =>
        simp only [Bool.false_eq_true, if_false, wp_pure]
        refine ⟨⟨walking.consistent, walking.unlocked, Passes.refl store, walking.refs, ?_, ?_⟩, rfl,
          notStray⟩
        · intro found isFound
          cases isFound
          exact walking.linked
        · intro _ _ impossible
          cases impossible
    · have shorter := length_lt_of_skipelem skipped
      rcases copyElement_holds size fun isZero => nonzero (elementWithin isZero) with
        ⟨sizeStill, isName, _⟩
      have nonzeroName : 0 ∉ element.take DIRSIZ := fun member =>
        nonzero (elementWithin (List.mem_of_mem_take member))
      have isLast : rest = [] ↔ elementNames rest = [] := by
        refine ⟨fun ended => by rw [ended]; rfl, fun none => ?_⟩
        exact eq_nil_of_elements skipped (List.map_eq_nil_iff.mp none)
      rw [skipped, isElements, List.map_cons, ← elementNames, target_cons]
      have stray := stray_cons store.nodes (store.icache ip).inum (element.take DIRSIZ)
        (elementNames rest)
      simp only [wp_bind, isName]
      have locks : Wp (ilock ip) store _ fun stop after => Stops live shaped store stop after ∧ _ :=
        walking.ilock_stray_wp
      refine locks.mono ?_ ?_
      · rintro _ locked ⟨isLocked, typed⟩
        subst isLocked
        have isType : ((store.locking ip).icache ip).dinode.type =
            (store.nodes (store.icache ip).inum).type := by
          rw [Store.locking, icache_withInode_self]
          rfl
        simp only [wp_get, wp_ite, isType]
        split
        · rename_i notDir
          have notStray := fun isStray => (stray.mp isStray).elim typed fun both => notDir both.1
          refine (walking.fails_wp parent typed).seq ?_
          intro _ after walked
          rw [wp_pure]
          exact ⟨walked, rfl, notStray⟩
        · rename_i notFile
          have isDir := not_not.mp notFile
          split
          · rename_i last
            rw [if_pos ⟨last.1, isLast.mp last.2⟩, last.1]
            have notStray : ¬ Stray store.nodes (store.icache ip).inum
                (element.take DIRSIZ :: elementNames rest) := by
              rw [stray, isLast.mp last.2]
              rintro (free | ⟨_, next, _, isStray⟩)
              · exact typed free
              · exact not_stray_nil _ _ isStray
            refine (walking.ends_wp isDir (List.length_take_le _ _) nonzeroName).seq ?_
            rintro _ after ⟨walked, isInum⟩
            rw [wp_pure, Option.map_some, isInum]
            exact ⟨walked, rfl, notStray⟩
          · rename_i notLast
            rw [if_neg fun last => notLast ⟨last.1, isLast.mpr last.2⟩]
            have looks : Wp (dirlookup ip (element.take DIRSIZ)) (store.locking ip) _
                fun stop after => Stops live shaped store stop after ∧ _ :=
              walking.dirlookup_full_wp _ isDir
            rw [wp_bind]
            refine looks.mono ?_ ?_
            · rintro result middle ⟨lookedUp, isResult⟩
              rw [← isResult]
              cases lookedUp with
              | missing absent =>
                have notStray : ¬ Stray store.nodes (store.icache ip).inum
                    (element.take DIRSIZ :: elementNames rest) := by
                  rw [stray, ← isResult]
                  rintro (free | ⟨_, next, impossible, _⟩)
                  · exact typed free
                  · cases impossible
                simp only [wp_bind]
                refine (walking.fails_wp parent typed).imp ?_
                intro _ after walked
                rw [wp_pure]
                exact ⟨walked, rfl, notStray⟩
              | found position inum isEntry isNonzero got =>
                rw [inum_locking] at isEntry got
                rw [Option.map_some, got.inum] at isResult
                have same : Stray store.nodes (store.icache ip).inum
                    (element.take DIRSIZ :: elementNames rest) ↔
                      Stray store.nodes inum (elementNames rest) := by
                  rw [stray, ← isResult]
                  constructor
                  · rintro (free | ⟨_, next, isNext, isStray⟩)
                    · exact absurd free typed
                    · cases isNext
                      exact isStray
                  · exact fun isStray => Or.inr ⟨isDir, inum, rfl, isStray⟩
                simp only [wp_bind]
                refine (walking.next_wp isDir isEntry isNonzero got).imp ?_
                rintro _ after ⟨further, passes, isInum⟩
                have sameNodes := passes.nodes_eq guarded
                refine (ih further (by omega) (fun member => nonzero (restWithin member)) sizeStill
                  (guarded.later passes)).mono ?_ ?_
                · rintro result final ⟨walked, isTarget, notStray⟩
                  rw [sameNodes, isInum] at isTarget notStray
                  rw [isTarget, Option.map_some, Option.bind_some, got.inum]
                  exact ⟨walked.later passes, rfl, fun isStray => notStray (same.mp isStray)⟩
                · rintro stop final ⟨stops, full | ⟨isStop, isStray⟩⟩
                  · exact ⟨stops.later passes.followed, Or.inl full⟩
                  · rw [sameNodes, isInum] at isStray
                    exact ⟨stops.later passes.followed, Or.inr ⟨isStop, same.mpr isStray⟩⟩
            · rintro stop after ⟨stops, full⟩
              exact ⟨stops, Or.inl full⟩
      · rintro stop after ⟨stops, isStop, free⟩
        exact ⟨stops, Or.inr ⟨isStop, stray.mpr (Or.inl free)⟩⟩

end

/-! ## `namei` and `nameiparent` -/

/-- The state at the start of a call or between two walks of it. -/
structure Ready (live : Prop) (store : Store) (cwd : Index) : Prop where
  consistent : Consistent store
  unlocked : store.locks = fun _ => false
  inOp : store.inOp = true
  held : 0 < store.refs cwd
  closed : live → Closed store.nodes

/-- The path is absolute, or the working directory has not been removed. -/
def Rooted (store : Store) (cwd : Index) (path : Path) : Prop :=
  path.head? = some slash ∨ (store.nodes (store.icache cwd).inum).Linked

section

variable {live shaped : Prop} {cwd : Index}

theorem Intact.refs_nonneg (intact : Intact store) (ip : Index) : 0 ≤ store.refs ip :=
  (intact.agrees ip).counted

/-- The inode at which a path starts. -/
def startOf (store : Store) (cwd : Index) (path : Path) : Nat :=
  if path.head? = some slash then ROOTINO else (store.icache cwd).inum

/-- The loop of `namex`, from the inode to which it has taken a reference. -/
theorem Ready.walk {ip : Index}
    (ready : Ready live store cwd) (got : Got store middle ip inum) (sb : middle.sb = store.sb)
    (inOp : middle.inOp = store.inOp) (lookups : middle.lookups = store.lookups)
    (nonzero : 0 ∉ path) (linked : live → (store.nodes inum).Linked) :
    Wp (namexFrom parent (path.length + 1) ip path (List.replicate DIRSIZ 0)) middle
      (fun result after => Walked live store.refs parent store result after ∧
        (result.map fun found => ((after.icache found.1).inum, found.2)) =
          target parent store.nodes inum (elementNames path) ∧
        ¬ Stray store.nodes inum (elementNames path))
      fun stop after => Stops live shaped store stop after ∧
        StopsWalk store.nodes inum (elementNames path) stop after := by
  have nodes := got.nodes
  have passes : Passes live store.refs store middle := by
    refine ⟨sb, inOp, ?_, ?_, ?_, Followed.of_eq lookups⟩
    · intro other positive
      rw [got.entry other positive]
    · intro other _
      rw [nodes]
    · rw [nodes]
      exact Collects.refl _
  have walking : Walking live store.refs middle ip := by
    refine ⟨got.consistent ready.consistent, ?_, ?_, got.refs, ready.consistent.refs_nonneg, ?_, ?_⟩
    · rw [got.locks ready.consistent.toIntact, ready.unlocked]
    · rw [inOp, ready.inOp]
    · rw [nodes]
      exact ready.closed
    · rw [nodes, got.inum]
      exact linked
  have loop : Wp (namexFrom parent (path.length + 1) ip path (List.replicate DIRSIZ 0)) middle _ _ :=
    namexFrom_wp shaped walking (Nat.lt_succ_self path.length) nonzero List.length_replicate
      (ready.consistent.guarded.later passes)
  rw [nodes, got.inum] at loop
  refine loop.mono ?_ ?_
  · rintro result after ⟨walked, found⟩
    exact ⟨walked.later passes, found⟩
  · rintro stop after ⟨stops, walk⟩
    exact ⟨stops.later passes.followed, walk⟩

variable (ready : Ready live store cwd) (rooted : live → Rooted store cwd path) (nonzero : 0 ∉ path)
include ready rooted nonzero

theorem namex_wp :
    Wp (namex cwd path parent) store
      (fun result after => Walked live store.refs parent store result after ∧
        (result.map fun found => ((after.icache found.1).inum, found.2)) =
          target parent store.nodes (startOf store cwd path) (elementNames path) ∧
        ¬ Stray store.nodes (startOf store cwd path) (elementNames path))
      fun stop after => Stops live shaped store stop after ∧
        StopsWalk store.nodes (startOf store cwd path) (elementNames path) stop after := by
  rw [namex, startOf]
  split
  · rw [wp_bind]
    have inRange : ROOTINO < store.sb.ninodes := ready.consistent.whole.layout.root
    refine (iget_wp ready.consistent.toIntact inRange).mono ?_ ?_
    · intro ip middle got
      have same : middle.sb = store.sb ∧ middle.inOp = store.inOp ∧
          middle.lookups = store.lookups := by
        rw [got.store]
        exact ⟨rfl, rfl, rfl⟩
      apply ready.walk got same.1 same.2.1 same.2.2 nonzero
      intro isLive
      exact (ready.closed isLive).root.linked
    · rintro stop after ⟨isStop, isAfter, full⟩
      refine ⟨?_, Or.inl ⟨isStop, full⟩⟩
      rw [isAfter]
      exact Stops.exhausted (Or.inr (Or.inr (Or.inl isStop))) (Followed.of_eq rfl)
  · rename_i relative
    rw [wp_bind, idup, wp_setInode]
    apply ready.walk (Got.of_hit ready.consistent.toIntact ready.held rfl) rfl rfl rfl nonzero
    intro isLive
    rcases rooted isLive with absolute | linked
    · exact absurd absolute relative
    · exact linked

theorem namei_wp :
    Wp (namei cwd path) store
      (fun result after => ∃ name, Walked live store.refs false store
        (result.map fun ip => (ip, name)) after)
      (Stops live shaped store) := by
  rw [namei]
  rw [wp_bind]
  refine (namex_wp ready rooted nonzero).mono ?_ fun _ _ => And.left
  rintro result after ⟨walked, _⟩
  rw [wp_pure]
  cases result with
  | none => exact ⟨[], walked⟩
  | some found => exact ⟨found.2, walked⟩

theorem nameiparent_wp :
    Wp (nameiparent cwd path) store (Walked live store.refs true store) (Stops live shaped store) :=
  (namex_wp ready rooted nonzero).mono (fun _ _ => And.left) fun _ _ => And.left

end

end Fs
end Xv6
