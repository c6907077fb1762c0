import Mathlib.Data.Fintype.Card
import Xv6.Foundation.Bytes
import Xv6.Foundation.LinkedRing
import Xv6.Foundation.Program
import Xv6.Log.State

namespace Xv6
namespace Buffer

open Foundation Function
open Log (LogState)

/-!
# The buffer cache

`kernel/bio.c` over a machine with one disk.  The cache is the array of
buffers with the pointers of its most-recently-used list; `bget` walks that
list forwards for a hit and backwards for a buffer to recycle.  A buffer's
sleep-lock is its holder, and a process that has found its buffer but not yet
locked it is recorded as waiting for it.

The in-memory log is part of the machine, since a block in its header is
pinned in the cache.  Four more components record the past and are never read
by the code: the writes that reached the disk, the blocks that are pinned,
whether a reference count was decremented at zero, and whether a buffer was
recycled that somebody used.
-/

abbrev Block := Bytes BSIZE

abbrev Pid := Fin NPROC

abbrev Index := Fin NBUF

/-- `struct buf` without its list pointers. -/
@[ext] structure Buf where
  valid : Bool
  dev : Nat
  blockno : Nat
  holder : Option Pid
  refcnt : BitVec 32
  data : Block

structure Machine where
  bufs : Index → Buf
  ring : LinkedRing Index
  waiting : Pid → Option Index
  disk : Nat → Block
  log : LogState
  writes : List (Nat × Block)
  pins : List Nat
  underflow : Bool
  stolen : Bool

/-- Why a call does not return: it sleeps, or the kernel panics. -/
inductive Stop where
  | asleep
  | panic (reason : Panic)
deriving DecidableEq, Repr

abbrev Kernel := EStateM Stop Machine

/-- What the loader leaves in a buffer. -/
def Buf.unused : Buf where
  valid := false
  dev := 0
  blockno := 0
  holder := none
  refcnt := 0
  data := Bytes.zero

/-- `binit`: insert the buffers one by one behind the head. -/
def binit : LinkedRing Index :=
  (List.finRange NBUF).foldl (fun ring buf => ring.pushFront (some buf)) LinkedRing.empty

namespace Machine

/-- The machine after `binit`, with the fields of the log as `initlog` sets
them before recovery. -/
def boot (disk : Nat → Block) (log : LogState) : Machine where
  bufs := fun _ => Buf.unused
  ring := binit
  waiting := fun _ => none
  disk := disk
  log := log
  writes := []
  pins := []
  underflow := false
  stolen := false

@[simp] def setBuf (machine : Machine) (index : Index) (buf : Buf) : Machine :=
  { machine with bufs := update machine.bufs index buf }

/-- The buffer carries this block. -/
def Keyed (machine : Machine) (dev blockno : Nat) (index : Index) : Prop :=
  (machine.bufs index).dev = dev ∧ (machine.bufs index).blockno = blockno

instance (machine : Machine) (dev blockno : Nat) (index : Index) :
    Decidable (machine.Keyed dev blockno index) :=
  inferInstanceAs (Decidable (_ ∧ _))

/-- The block of the buffer has been pinned, and not unpinned since. -/
def Pinned (machine : Machine) (index : Index) : Prop :=
  (machine.bufs index).dev = machine.log.dev ∧ (machine.bufs index).blockno ∈ machine.pins

instance (machine : Machine) (index : Index) : Decidable (machine.Pinned index) :=
  inferInstanceAs (Decidable (_ ∧ _))

/-- Somebody has locked the buffer, waits for it, or has pinned its block. -/
def Used (machine : Machine) (index : Index) : Prop :=
  (machine.bufs index).holder ≠ none ∨ (∃ pid, machine.waiting pid = some index) ∨
    machine.Pinned index

instance (machine : Machine) (index : Index) : Decidable (machine.Used index) :=
  inferInstanceAs (Decidable (_ ∨ _ ∨ _))

/-- The first loop of `bget`, from the most recently used buffer on. -/
def cached (machine : Machine) (dev blockno : Nat) : Option Index :=
  (LinkedRing.walk machine.ring.next (NBUF + 1) (machine.ring.next none)).find?
    fun index => decide (machine.Keyed dev blockno index)

/-- The second loop of `bget`, from the least recently used buffer on. -/
def victim (machine : Machine) : Option Index :=
  (LinkedRing.walk machine.ring.prev (NBUF + 1) (machine.ring.prev none)).find?
    fun index => (machine.bufs index).refcnt = 0

end Machine

/-- `bget` up to its `acquiresleep`: find or recycle a buffer and count the
caller. -/
def bgetFind (pid : Pid) (dev blockno : Nat) : Kernel Index := do
  let machine ← get
  match machine.cached dev blockno with
  | some index =>
    let buf := machine.bufs index
    set { machine.setBuf index { buf with refcnt := buf.refcnt + 1 } with
      waiting := update machine.waiting pid (some index) }
    return index
  | none =>
    match machine.victim with
    | some index =>
      let buf := machine.bufs index
      set { machine.setBuf index
          { buf with dev := dev, blockno := blockno, valid := false, refcnt := 1 } with
        waiting := update machine.waiting pid (some index)
        stolen := machine.stolen || decide (machine.Used index) }
      return index
    | none => throw (.panic .bgetNoBuffers)

/-- `acquiresleep(&b->lock)`. -/
def acquiresleep (pid : Pid) (index : Index) : Kernel PUnit := do
  let machine ← get
  let buf := machine.bufs index
  if buf.holder.isSome then throw .asleep
  else
    set { machine.setBuf index { buf with holder := some pid } with
      waiting := update machine.waiting pid none }

def bget (pid : Pid) (dev blockno : Nat) : Kernel Index := do
  let index ← bgetFind pid dev blockno
  acquiresleep pid index
  return index

/-- `virtio_disk_rw(b, 0)`: the device is not part of the address. -/
def diskRead (index : Index) : Kernel PUnit :=
  modify fun machine =>
    let buf := machine.bufs index
    machine.setBuf index { buf with data := machine.disk buf.blockno }

/-- `virtio_disk_rw(b, 1)`. -/
def diskWrite (index : Index) : Kernel PUnit :=
  modify fun machine =>
    let buf := machine.bufs index
    { machine with
      disk := update machine.disk buf.blockno buf.data
      writes := machine.writes ++ [(buf.blockno, buf.data)] }

/-- The part of `bread` after `bget` has returned. -/
def validate (index : Index) : Kernel PUnit := do
  let machine ← get
  if (machine.bufs index).valid then pure ⟨⟩
  else
    diskRead index
    modify fun machine => machine.setBuf index { machine.bufs index with valid := true }

def bread (pid : Pid) (dev blockno : Nat) : Kernel Index := do
  let index ← bget pid dev blockno
  validate index
  return index

def bwrite (pid : Pid) (index : Index) : Kernel PUnit := do
  let machine ← get
  if (machine.bufs index).holder ≠ some pid then throw (.panic .bwrite)
  else diskWrite index

/-- `b->refcnt--`. -/
def decrement (machine : Machine) (index : Index) : Machine :=
  let buf := machine.bufs index
  { machine.setBuf index { buf with refcnt := buf.refcnt - 1 } with
    underflow := machine.underflow || decide (buf.refcnt = 0) }

def brelse (pid : Pid) (index : Index) : Kernel PUnit := do
  let machine ← get
  let buf := machine.bufs index
  if buf.holder ≠ some pid then throw (.panic .brelse)
  else
    let machine := decrement (machine.setBuf index { buf with holder := none }) index
    if (machine.bufs index).refcnt = 0 then
      set { machine with ring := (machine.ring.unlink (some index)).pushFront (some index) }
    else set machine

def bpin (index : Index) : Kernel PUnit :=
  modify fun machine =>
    let buf := machine.bufs index
    { machine.setBuf index { buf with refcnt := buf.refcnt + 1 } with
      pins := buf.blockno :: machine.pins }

def bunpin (index : Index) : Kernel PUnit :=
  modify fun machine =>
    { decrement machine index with pins := machine.pins.erase (machine.bufs index).blockno }

/-- An assignment to `b->data`. -/
def modifyData (index : Index) (update : Block → Block) : Kernel PUnit :=
  modify fun machine =>
    let buf := machine.bufs index
    machine.setBuf index { buf with data := update buf.data }

/-! ## Well-formed caches -/

/-- The pointers form one ring through all buffers. -/
def Complete (ring : LinkedRing Index) : Prop :=
  ∃ order, ring.Order order ∧ ∀ index, index ∈ order

variable {ring : LinkedRing Index}

theorem Complete.moveToFront (complete : Complete ring) (index : Index) :
    Complete ((ring.unlink (some index)).pushFront (some index)) := by
  rcases complete with ⟨order, ordered, all⟩
  refine ⟨_, ordered.moveToFront (all index), fun other => ?_⟩
  by_cases same : other = index
  · simp [same]
  · exact List.mem_cons_of_mem _ ((List.mem_erase_of_ne same).mpr (all other))

/-- The pointers form one ring through all buffers, no block of a device is
cached twice, and a buffer that nobody counts is not locked. -/
structure Wellformed (machine : Machine) : Prop where
  ring : Complete machine.ring
  unique : ∀ first second, (machine.bufs first).dev ≠ 0 →
    (machine.bufs first).dev = (machine.bufs second).dev →
    (machine.bufs first).blockno = (machine.bufs second).blockno → first = second
  idle : ∀ index, (machine.bufs index).refcnt = 0 → (machine.bufs index).holder = none

variable {order : List Index}

theorem order_foldl_pushFront
    (buffers : List Index) (ordered : ring.Order order) (distinct : (buffers.reverse ++ order).Nodup) :
    (buffers.foldl (fun ring buf => ring.pushFront (some buf)) ring).Order
      (buffers.reverse ++ order) := by
  induction buffers generalizing ring order with
  | nil => exact ordered
  | cons buf rest ih =>
    rw [List.reverse_cons, List.append_assoc] at distinct ⊢
    have fresh : buf ∉ order := (List.nodup_cons.mp distinct.of_append_right).1
    exact ih (ordered.pushFront fresh) distinct

theorem order_binit : binit.Order (List.finRange NBUF).reverse := by
  have order := order_foldl_pushFront (List.finRange NBUF) LinkedRing.order_empty
    (by simpa using List.nodup_finRange NBUF)
  simpa [binit] using order

theorem wellformed_boot (disk : Nat → Block) (log : LogState) :
    Wellformed (Machine.boot disk log) where
  ring := ⟨_, order_binit, fun index => by simp⟩
  unique := fun _ _ nonzero => absurd rfl nonzero
  idle := fun _ _ => rfl

namespace Complete

variable {machine : Machine} {dev blockno : Nat}

theorem length_lt (ordered : ring.Order order) : order.length < NBUF + 1 := by
  have bound := ordered.nodup.length_le_card
  rw [Fintype.card_fin] at bound
  omega

theorem not_keyed_of_cached_none (complete : Complete machine.ring)
    (missing : machine.cached dev blockno = none) (index : Index) :
    ¬ machine.Keyed dev blockno index := by
  rcases complete with ⟨order, ordered, all⟩
  rw [Machine.cached, ordered.forward (length_lt ordered)] at missing
  simpa using List.find?_eq_none.mp missing index (all index)

theorem counted_of_victim_none (complete : Complete machine.ring) (missing : machine.victim = none)
    (index : Index) : (machine.bufs index).refcnt ≠ 0 := by
  rcases complete with ⟨order, ordered, all⟩
  rw [Machine.victim, ordered.backward (length_lt ordered)] at missing
  simpa using List.find?_eq_none.mp missing index (List.mem_reverse.mpr (all index))

end Complete

variable {machine : Machine} {blockno : Nat} {index : Index}

theorem keyed_of_cached {dev : Nat}
    (found : machine.cached dev blockno = some index) : machine.Keyed dev blockno index := by
  simpa using List.find?_some found

theorem free_of_victim (found : machine.victim = some index) : (machine.bufs index).refcnt = 0 := by
  simpa using List.find?_some found

/-! ## What `bread` and `brelse` do -/

namespace Machine

variable (machine : Machine)

/-- The buffers that `bget` may return for a block: the one that has it, or a
free one if none has. -/
def Chosen (dev blockno : Nat) (index : Index) : Prop :=
  machine.Keyed dev blockno index ∨
    ((machine.bufs index).refcnt = 0 ∧ ∀ other, ¬ machine.Keyed dev blockno other)

/-- What `bread` finds in the buffer it returns. -/
def contents (dev blockno : Nat) (index : Index) : Block :=
  if machine.Keyed dev blockno index ∧ (machine.bufs index).valid then (machine.bufs index).data
  else machine.disk blockno

variable (pid : Pid)

/-- The machine after `bget` has found or recycled a buffer. -/
def reserved (dev blockno : Nat) (index : Index) : Machine :=
  { machine.setBuf index
      { machine.bufs index with
        dev := dev
        blockno := blockno
        valid := (machine.bufs index).valid && decide (machine.Keyed dev blockno index)
        refcnt := (machine.bufs index).refcnt + 1 } with
    waiting := update machine.waiting pid (some index)
    stolen := machine.stolen || decide (¬ machine.Keyed dev blockno index ∧ machine.Used index) }

/-- The machine after `bread` has locked the buffer and read the block. -/
def locked (index : Index) : Machine :=
  { machine.setBuf index
      { machine.bufs index with
        valid := true
        holder := some pid
        data := if (machine.bufs index).valid then (machine.bufs index).data
          else machine.disk (machine.bufs index).blockno } with
    waiting := update machine.waiting pid none }

/-- The machine after `bread` has returned a buffer. -/
def loaded (dev blockno : Nat) (index : Index) : Machine :=
  (machine.reserved pid dev blockno index).locked pid index

theorem loaded_eq (dev blockno : Nat) (index : Index) :
    machine.loaded pid dev blockno index =
      { machine.setBuf index
          { valid := true
            dev := dev
            blockno := blockno
            holder := some pid
            refcnt := (machine.bufs index).refcnt + 1
            data := machine.contents dev blockno index } with
        waiting := update machine.waiting pid none
        stolen :=
          machine.stolen || decide (¬ machine.Keyed dev blockno index ∧ machine.Used index) } := by
  simp [loaded, reserved, locked, setBuf, contents, and_comm]

end Machine

/-- `bget` finds the block or recycles a free buffer, unless all buffers are
counted. -/
theorem bgetFind_wp (pid : Pid) (dev blockno : Nat) (complete : Complete machine.ring) :
    Wp (bgetFind pid dev blockno) machine
      (fun index after => machine.Chosen dev blockno index ∧
        after = machine.reserved pid dev blockno index)
      fun _ _ => ∀ index, ¬ machine.Keyed dev blockno index ∧ (machine.bufs index).refcnt ≠ 0 := by
  simp only [bgetFind, wp_bind, wp_get]
  cases found : machine.cached dev blockno with
  | some index =>
    have keyed := keyed_of_cached found
    simp [Machine.Chosen, Machine.reserved, keyed, keyed.1, keyed.2]
  | none =>
    have absent := complete.not_keyed_of_cached_none found
    cases recycled : machine.victim with
    | some index =>
      have isFree := free_of_victim recycled
      simp [Machine.Chosen, Machine.reserved, isFree, absent]
    | none =>
      rw [wp_throw]
      exact fun index => ⟨absent index, complete.counted_of_victim_none recycled index⟩

theorem lock_wp (pid : Pid) (index : Index) :
    Wp (do acquiresleep pid index; validate index) machine
      (fun _ after => (machine.bufs index).holder = none ∧ after = machine.locked pid index)
      fun _ _ => (machine.bufs index).holder ≠ none := by
  simp only [acquiresleep, validate, diskRead, wp_bind, wp_get, wp_ite]
  cases holds : (machine.bufs index).holder with
  | some other => simp
  | none => cases isValid : (machine.bufs index).valid <;>
      simp [Machine.locked, isValid]

theorem bread_wp (pid : Pid) (dev blockno : Nat) (complete : Complete machine.ring) :
    Wp (bread pid dev blockno) machine
      (fun index after => machine.Chosen dev blockno index ∧ (machine.bufs index).holder = none ∧
        after = machine.loaded pid dev blockno index)
      fun _ _ => (∃ index, machine.Chosen dev blockno index ∧ (machine.bufs index).holder ≠ none) ∨
        ∀ index, ¬ machine.Keyed dev blockno index ∧ (machine.bufs index).refcnt ≠ 0 := by
  simp only [bread, bget, wp_bind, wp_pure]
  refine (bgetFind_wp pid dev blockno complete).mono ?_ fun _ _ => Or.inr
  rintro index after ⟨chosen, rfl⟩
  have sameHolder : ((machine.reserved pid dev blockno index).bufs index).holder =
      (machine.bufs index).holder := by
    simp [Machine.reserved]
  rw [← wp_bind]
  refine (lock_wp pid index).mono ?_ ?_
  · rintro _ after ⟨isFree, rfl⟩
    exact ⟨chosen, sameHolder ▸ isFree, rfl⟩
  · intro _ _ isLocked
    exact Or.inl ⟨index, chosen, sameHolder ▸ isLocked⟩

theorem wellformed_update {before after : Machine} {dev : Nat} {buf : Buf}
    (ok : Wellformed before) (device : dev ≠ 0) (chosen : before.Chosen dev blockno index)
    (bufs : after.bufs = update before.bufs index buf) (ring : Complete after.ring)
    (keyed : buf.dev = dev ∧ buf.blockno = blockno) (idle : buf.refcnt = 0 → buf.holder = none) :
    Wellformed after := by
  have alone : ∀ other, before.Keyed dev blockno other → other = index := by
    intro other alsoKeyed
    rcases chosen with hit | ⟨_, missing⟩
    · exact ok.unique other index (alsoKeyed.1.symm ▸ device) (alsoKeyed.1.trans hit.1.symm)
        (alsoKeyed.2.trans hit.2.symm)
    · exact absurd alsoKeyed (missing other)
  refine ⟨ring, fun first second nonzero sameDev sameBlock => ?_, fun other isFree => ?_⟩
  · rw [bufs] at nonzero sameDev sameBlock
    by_cases isFirst : first = index <;> by_cases isSecond : second = index
    · rw [isFirst, isSecond]
    · subst first
      rw [update_self, update_of_ne isSecond] at sameDev sameBlock
      exact (alone second ⟨sameDev.symm.trans keyed.1, sameBlock.symm.trans keyed.2⟩).symm
    · subst second
      rw [update_self, update_of_ne isFirst] at sameDev sameBlock
      exact alone first ⟨sameDev.trans keyed.1, sameBlock.trans keyed.2⟩
    · rw [update_of_ne isFirst] at nonzero sameDev sameBlock
      rw [update_of_ne isSecond] at sameDev sameBlock
      exact ok.unique first second nonzero sameDev sameBlock
  · rw [bufs] at isFree ⊢
    by_cases same : other = index
    · subst other
      rw [update_self] at isFree ⊢
      exact idle isFree
    · rw [update_of_ne same] at isFree ⊢
      exact ok.idle other isFree

theorem brelse_wp {pid : Pid} (complete : Complete machine.ring)
    (held : (machine.bufs index).holder = some pid) :
    Wp (brelse pid index) machine
      fun _ after => ∃ ring, Complete ring ∧ after =
        { machine.setBuf index { machine.bufs index with
            holder := none
            refcnt := (machine.bufs index).refcnt - 1 } with
          ring := ring
          underflow := machine.underflow || decide ((machine.bufs index).refcnt = 0) } := by
  simp only [brelse, wp_bind, wp_get, held, ne_eq, not_true_eq_false, if_false, wp_ite, wp_set]
  split
  · exact ⟨_, complete.moveToFront index, by simp [decrement]⟩
  · exact ⟨_, complete, by simp [decrement]⟩

end Buffer
end Xv6
