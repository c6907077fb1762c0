import Xv6.Fs.ByteArray

namespace Xv6
namespace Fs

open Foundation Function Store Volume
open Buffer (Block Stop)

/-!
# Truncating an inode

`itrunc` frees the blocks of an inode one after another, and the indirect block
last.  The blocks it frees are in use, since the inode holds them, and no block
is freed twice, since no two places hold the same one.  The inode stays as the
disk has it until the `iupdate` at the end.
-/

variable {after middle : Store} {used : Nat → Bool} {b : Nat}

section

variable {tracked : Prop} {store : Store} {ip : Index}

theorem StaleInFiles.fewer {before volume : Volume}
    (stale : StaleInFiles store before) (sameSb : after.sb = store.sb)
    (fewerStale : ∀ b, after.stale b ≠ none → store.stale b ≠ none)
    (fewer : ∀ place, volume.held place = none ∨ volume.held place = before.held place)
    (types : ∀ inum, (volume.dinodes inum).type = (before.dinodes inum).type) :
    StaleInFiles after volume := by
  intro b isStale
  rcases stale b (fewerStale b isStale) with ⟨inPool, inFiles⟩
  rw [sameSb]
  refine ⟨inPool, fun place isBlock => ?_⟩
  have holds : volume.held place = some b :=
    held_eq_some.mpr ⟨isBlock, pool_ne_zero inPool⟩
  rcases fewer place with nothing | same
  · rw [nothing] at holds
    cases holds
  · rw [same] at holds
    rw [types]
    exact inFiles place (held_eq_some.mp holds).1

/-- Some addresses of the inode were cleared and their blocks freed. -/
structure Trimmed (tracked : Prop) (before after : Store) (ip : Index) : Prop where
  editing : Editing tracked after ip
  edited : Edited before after ip
  dinode : (after.icache ip).dinode =
    { (before.icache ip).dinode with addrs := (after.icache ip).dinode.addrs }
  dinodes : after.volume.dinodes = before.volume.dinodes
  data : after.volume.data = before.volume.data

theorem Trimmed.refl (editing : Editing tracked store ip) : Trimmed tracked store store ip :=
  ⟨editing, Edited.refl _ _, rfl, rfl, rfl⟩

theorem Trimmed.trans (early : Trimmed tracked store middle ip)
    (late : Trimmed tracked middle after ip) : Trimmed tracked store after ip := by
  refine ⟨late.editing, early.edited.trans late.edited, ?_, late.dinodes.trans early.dinodes,
    late.data.trans early.data⟩
  rw [late.dinode, early.dinode]

/-- A slot is cleared after its block was freed. -/
def clearAddr (slot : Fin (NDIRECT + 1)) (dinode : Dinode) : Dinode :=
  { dinode with addrs := update dinode.addrs slot 0 }

theorem Store.view_clearAddr (slot : Fin (NDIRECT + 1)) (icache : after.icache = store.icache)
    (volume : after.volume = { store.volume with
      used := update used ((store.icache ip).dinode.addrs slot).toNat false }) :
    (after.withDinode ip (clearAddr slot)).view ip =
      Volume.clearSlot { store.view ip with used := used } (store.icache ip).inum slot := by
  rw [view_withDinode, Store.view, volume, icache]
  simp [Volume.clearSlot, Store.view, clearAddr]

variable {slot : Fin (NDIRECT + 1)}

theorem Trimmed.cleared (editing : Editing tracked store ip) (edited : Edited store after ip)
    (icache : after.icache = store.icache) (volume : after.volume = { store.volume with
      used := update used ((store.icache ip).dinode.addrs slot).toNat false })
    (stale : ∀ b, after.stale b ≠ none → store.stale b ≠ none)
    (owned : Owned store.sb
      (Volume.clearSlot { store.view ip with used := used } (store.icache ip).inum slot))
    (fewer : ∀ place, (Volume.clearSlot { store.view ip with used := used }
      (store.icache ip).inum slot).held place = none ∨
        (Volume.clearSlot { store.view ip with used := used }
          (store.icache ip).inum slot).held place = (store.view ip).held place) :
    Trimmed tracked store (after.withDinode ip (clearAddr slot)) ip := by
  have isView := view_clearAddr slot icache volume
  have isEdited : Edited store (after.withDinode ip (clearAddr slot)) ip :=
    edited.trans (Edited.withDinode after ip _)
  have isDinode : ((after.withDinode ip (clearAddr slot)).icache ip).dinode =
      clearAddr slot (store.icache ip).dinode := by
    rw [icache_withDinode, icache]
  refine ⟨⟨?_, ?_, ?_, ?_, ?_, ?_⟩, isEdited, ?_, ?_, ?_⟩
  · rw [isEdited.sb]
    exact editing.layout
  · rw [isEdited.inOp]
    exact editing.inOp
  · rw [isEdited.inum, isEdited.sb]
    exact editing.inRange
  · rw [isDinode]
    exact editing.typed
  · rw [isEdited.sb, isView]
    exact owned
  · intro isTracked
    rw [isView]
    refine (editing.stale isTracked).fewer isEdited.sb stale fewer ?_
    intro inum
    by_cases same : inum = (store.icache ip).inum
    · rw [same]
      simp [Volume.clearSlot]
    · simp [Volume.clearSlot, same]
  · rw [isDinode]
    rfl
  · rw [volume_withDinode, volume]
  · rw [volume_withDinode, volume]

theorem Volume.held_clearSlot_le (volume : Volume) (inum : Nat)
    (direct : slot ≠ indirectSlot) (place : Place) :
    (volume.clearSlot inum slot).held place = none ∨
      (volume.clearSlot inum slot).held place = volume.held place := by
  have addrs : ((volume.clearSlot inum slot).dinodes inum).addrs =
      update (volume.dinodes inum).addrs slot 0 := by
    simp [Volume.clearSlot]
  have changed := blockAt_of_direct direct addrs
    (fun other different => by simp [Volume.clearSlot, different]) (fun _ => rfl) place
  by_cases same : place = (inum, some slot.val)
  · left
    rw [held_eq_none, changed, if_pos same]
    rfl
  · right
    exact held_congr (by rw [changed, if_neg same])

theorem Editing.used_of_addr (editing : Editing tracked store ip) {place : Place}
    (present : (store.view ip).blockAt place ≠ 0) :
    (store.view ip).blockAt place < store.sb.size ∧
      store.volume.used ((store.view ip).blockAt place) = true := by
  have holds := Owned.held_of_ne_zero present
  exact ⟨(editing.owned.allocation.inside _ _ holds).2, editing.owned.allocation.used_of_holds holds⟩

theorem Store.stale_freed {other : Nat} (isStale : (store.freed b).stale other ≠ none) :
    store.stale other ≠ none := by
  unfold Store.freed at isStale
  rw [stale_modified] at isStale
  by_cases same : other = store.sb.BBLOCK b
  · rw [same, update_self] at isStale
    exact absurd rfl isStale
  · rwa [update_of_ne same] at isStale

theorem itruncSlot_wp (editing : Editing tracked store ip) (direct : slot ≠ indirectSlot) :
    Wp (itruncSlot ip slot) store
      fun _ after => Trimmed tracked store after ip ∧
        (after.icache ip).dinode.addrs = update (store.icache ip).dinode.addrs slot 0 := by
  simp only [itruncSlot, wp_bind, wp_get, wp_ite, wp_pure]
  split
  · rename_i zero
    refine ⟨Trimmed.refl editing, ?_⟩
    rw [← zero, update_eq_self]
  · rename_i present
    have isBlock : (store.view ip).blockAt ((store.icache ip).inum, some slot.val) =
        ((store.icache ip).dinode.addrs slot).toNat := by
      show (store.view ip).address _ slot.val = _
      rw [address_direct _ _ (val_lt_of_ne_indirectSlot direct),
        Fin.ofNat_val_eq_self, dinodes_view_self]
    have nonzero : ((store.icache ip).dinode.addrs slot).toNat ≠ 0 :=
      fun zero => present (BitVec.eq_of_toNat_eq zero)
    have isUsed := editing.used_of_addr (by rw [isBlock]; exact nonzero)
    rw [isBlock] at isUsed
    refine (bfree_wp editing.inOp isUsed.2).mono ?_ fun _ _ => id
    intro _ middle isMiddle
    subst middle
    rw [wp_setDinode]
    have owned := editing.owned.clearSlot direct
      (show ((store.view ip).dinodes (store.icache ip).inum).addrs slot ≠ 0 by
        rw [dinodes_view_self]
        exact present)
    refine ⟨Trimmed.cleared editing ⟨rfl, rfl, rfl, rfl, fun _ _ => rfl⟩ rfl
      (volume_freed editing.layout isUsed.1) (fun _ => stale_freed) owned
      (held_clearSlot_le _ _ direct), ?_⟩
    show (((store.freed _).withDinode ip (clearAddr slot)).icache ip).dinode.addrs = _
    rw [icache_withDinode]
    rfl

theorem itruncSlots_wp {slots : List (Fin (NDIRECT + 1))} (editing : Editing tracked store ip)
    (direct : indirectSlot ∉ slots) :
    Wp (itruncSlots ip slots) store
      fun _ after => Trimmed tracked store after ip ∧ ∀ slot,
        (after.icache ip).dinode.addrs slot =
          if slot ∈ slots then 0 else (store.icache ip).dinode.addrs slot := by
  induction slots generalizing store with
  | nil =>
    rw [itruncSlots, wp_pure]
    exact ⟨Trimmed.refl editing, fun _ => by simp⟩
  | cons slot rest ih =>
    rw [List.mem_cons, not_or] at direct
    rw [itruncSlots]
    refine (itruncSlot_wp editing (Ne.symm direct.1)).seq ?_
    rintro _ middle ⟨trimmed, cleared⟩
    refine (ih trimmed.editing direct.2).imp ?_
    rintro _ after ⟨more, addrs⟩
    refine ⟨trimmed.trans more, fun other => ?_⟩
    rw [addrs, cleared]
    by_cases here : other = slot
    · simp [here]
    · simp [here]

/-! ## The indirect block -/

/-- What freeing the entries of an indirect block leaves alone. -/
structure Dropped (before after : Store) : Prop where
  sb : after.sb = before.sb
  inOp : after.inOp = before.inOp
  lookups : after.lookups = before.lookups
  icache : after.icache = before.icache
  stale : ∀ b, after.stale b ≠ none → before.stale b ≠ none
  dinodes : after.volume.dinodes = before.volume.dinodes
  data : after.volume.data = before.volume.data
  metadata : ∀ b, b < before.sb.nmeta → after.volume.used b = before.volume.used b

theorem Dropped.refl (store : Store) : Dropped store store :=
  ⟨rfl, rfl, rfl, rfl, fun _ => id, rfl, rfl, fun _ _ => rfl⟩

theorem Dropped.trans {first second third : Store} (early : Dropped first second)
    (late : Dropped second third) : Dropped first third where
  sb := late.sb.trans early.sb
  inOp := late.inOp.trans early.inOp
  lookups := late.lookups.trans early.lookups
  icache := late.icache.trans early.icache
  stale b isStale := early.stale b (late.stale b isStale)
  dinodes := late.dinodes.trans early.dinodes
  data := late.data.trans early.data
  metadata b inMetadata :=
    (late.metadata b (early.sb ▸ inMetadata)).trans (early.metadata b inMetadata)

theorem dropped_freed (layout : Layout store.sb) (inPool : Pool store.sb b) :
    Dropped store (store.freed b) := by
  have volume := volume_freed layout inPool.2
  refine ⟨rfl, rfl, rfl, rfl, fun _ => stale_freed, by rw [volume], by rw [volume], ?_⟩
  intro other inMetadata
  have behind := inPool.1
  rw [volume]
  exact update_of_ne (by omega) _ _

theorem itruncEntries_wp {block : Block} {inum : Nat} {entries : List Nat}
    {holds : Place → Option Nat} (layout : Layout store.sb) (inOp : store.inOp = true)
    (allocation : Allocation (Pool store.sb) store.volume.used holds)
    (distinct : entries.Nodup)
    (listed : ∀ entry ∈ entries, holds (inum, some (NDIRECT + entry)) =
      if block.getLE (4 * entry) 4 = 0 then none else some (block.getLE (4 * entry) 4)) :
    Wp (itruncEntries block entries) store
      fun _ after => Dropped store after ∧ Allocation (Pool store.sb) after.volume.used
        (Volume.dropEntries inum entries holds) := by
  induction entries generalizing store holds with
  | nil =>
    rw [itruncEntries, wp_pure]
    exact ⟨Dropped.refl store, allocation⟩
  | cons entry rest ih =>
    rw [List.nodup_cons] at distinct
    have here := listed entry List.mem_cons_self
    have listedRest : ∀ other ∈ rest,
        update holds (inum, some (NDIRECT + entry)) none (inum, some (NDIRECT + other)) =
          if block.getLE (4 * other) 4 = 0 then none else some (block.getLE (4 * other) 4) := by
      intro other member
      have different : (inum, some (NDIRECT + other)) ≠ (inum, some (NDIRECT + entry)) := by
        intro same
        simp only [Prod.mk.injEq, Option.some.injEq, true_and] at same
        have isEntry : other = entry := by omega
        rw [isEntry] at member
        exact distinct.1 member
      rw [update_of_ne different]
      exact listed other (List.mem_cons_of_mem entry member)
    simp only [itruncEntries, wp_ite, wp_bind]
    split
    · rename_i zero
      rw [if_pos zero] at here
      have unchanged : update holds (inum, some (NDIRECT + entry)) none = holds := by
        rw [← here, update_eq_self]
      rw [unchanged] at listedRest
      have dropped : Volume.dropEntries inum (entry :: rest) holds =
          Volume.dropEntries inum rest holds := by
        rw [Volume.dropEntries, unchanged]
      rw [dropped]
      exact ih layout inOp allocation distinct.2 listedRest
    · rename_i nonzero
      rw [if_neg nonzero] at here
      have inPool := allocation.inside _ _ here
      refine (bfree_wp inOp (allocation.used_of_holds here)).mono ?_ fun _ _ => id
      intro _ middle isMiddle
      subst middle
      have freed := dropped_freed layout inPool
      have released := allocation.release here
      have used : (store.freed (block.getLE (4 * entry) 4)).volume.used =
          update store.volume.used (block.getLE (4 * entry) 4) false := by
        rw [volume_freed layout inPool.2]
      rw [← used] at released
      have remaining : Wp (itruncEntries block rest) (store.freed (block.getLE (4 * entry) 4))
          fun _ after => Dropped (store.freed (block.getLE (4 * entry) 4)) after ∧
            Allocation (Pool store.sb) after.volume.used
              (Volume.dropEntries inum (entry :: rest) holds) :=
        ih layout inOp released distinct.2 listedRest
      refine remaining.imp ?_
      rintro _ after ⟨dropped, final⟩
      exact ⟨freed.trans dropped, final⟩

theorem Volume.held_clearIndirect_le (volume : Volume) (inum : Nat) (used : Nat → Bool)
    (zero : volume.data 0 = Bytes.zero) (place : Place) :
    (Volume.clearSlot { volume with used := used } inum indirectSlot).held place = none ∨
      (Volume.clearSlot { volume with used := used } inum indirectSlot).held place =
        volume.held place := by
  have held : (Volume.clearSlot { volume with used := used } inum indirectSlot).held =
      update (Volume.dropEntries inum (List.range NINDIRECT) volume.held) (inum, none)
        none := by
    refine held_clearIndirect ?_ ?_ ?_ zero
    · simp [Volume.clearSlot]
    · intro other different
      simp [Volume.clearSlot, different]
    · rfl
  rw [held]
  by_cases same : place = (inum, none)
  · left
    rw [same, update_self]
  · rw [update_of_ne same]
    exact dropEntries_le inum (List.range NINDIRECT) volume.held place

theorem itruncSlot_indirect_wp (editing : Editing tracked store ip)
    (present : (store.icache ip).dinode.addrs indirectSlot ≠ 0) (dropped : Dropped store middle)
    (allocation : Allocation (Pool store.sb) middle.volume.used
      (Volume.dropEntries (store.icache ip).inum (List.range NINDIRECT) (store.view ip).held)) :
    Wp (itruncSlot ip indirectSlot) middle
      fun _ after => Trimmed tracked store after ip ∧
        (after.icache ip).dinode.addrs = update (store.icache ip).dinode.addrs indirectSlot 0 := by
  have holds : Volume.dropEntries (store.icache ip).inum (List.range NINDIRECT)
      (store.view ip).held ((store.icache ip).inum, none) =
        some ((store.icache ip).dinode.addrs indirectSlot).toNat := by
    rw [dropEntries_of_not_mem fun entry _ => by simp, held_eq_some, Volume.blockAt,
      Volume.indirect, dinodes_view_self]
    exact ⟨rfl, fun zero => present (BitVec.eq_of_toNat_eq zero)⟩
  have inPool := allocation.inside _ _ holds
  have layout : Layout middle.sb := by
    rw [dropped.sb]
    exact editing.layout
  simp only [itruncSlot, wp_bind, wp_get, wp_ite, wp_pure]
  rw [dropped.icache, if_neg present]
  refine (bfree_wp (dropped.inOp.trans editing.inOp) (allocation.used_of_holds holds)).mono ?_
    fun _ _ => id
  intro _ freed isFreed
  subst freed
  rw [wp_setDinode]
  have volume : (middle.freed ((store.icache ip).dinode.addrs indirectSlot).toNat).volume =
      { store.volume with
        used := update middle.volume.used
          ((store.icache ip).dinode.addrs indirectSlot).toNat false } := by
    rw [volume_freed layout (by rw [dropped.sb]; exact inPool.2)]
    dsimp only
    rw [dropped.dinodes, dropped.data]
  have edited : Edited store
      (middle.freed ((store.icache ip).dinode.addrs indirectSlot).toNat) ip := by
    refine ⟨dropped.sb, dropped.inOp, dropped.lookups, ?_, ?_⟩
    · have icache : (middle.freed ((store.icache ip).dinode.addrs indirectSlot).toNat).icache =
          store.icache := dropped.icache
      rw [icache]
    · intro other _
      exact congrFun dropped.icache other
  have owned := editing.owned.clearIndirect
    (show ((store.view ip).dinodes (store.icache ip).inum).addrs indirectSlot ≠ 0 by
      rw [dinodes_view_self]
      exact present) allocation dropped.metadata
  refine ⟨Trimmed.cleared editing edited dropped.icache volume
    (fun b isStale => dropped.stale b (stale_freed isStale)) owned
    (held_clearIndirect_le _ _ _ editing.owned.zero), ?_⟩
  show (((middle.freed _).withDinode ip (clearAddr indirectSlot)).icache ip).dinode.addrs = _
  rw [icache_withDinode]
  show (clearAddr indirectSlot (middle.icache ip).dinode).addrs = _
  rw [dropped.icache]
  rfl

theorem itruncIndirect_wp (editing : Editing tracked store ip) :
    Wp (itruncIndirect ip) store
      fun _ after => Trimmed tracked store after ip ∧
        (after.icache ip).dinode.addrs = update (store.icache ip).dinode.addrs indirectSlot 0 := by
  simp only [itruncIndirect, wp_bind, wp_get, wp_ite, wp_pure, bread]
  split
  · rename_i zero
    refine ⟨Trimmed.refl editing, ?_⟩
    rw [← zero, update_eq_self]
  · rename_i present
    have nonzero : ((store.icache ip).dinode.addrs indirectSlot).toNat ≠ 0 :=
      fun zero => present (BitVec.eq_of_toNat_eq zero)
    have isIndirect : (store.view ip).indirect (store.icache ip).inum =
        ((store.icache ip).dinode.addrs indirectSlot).toNat := by
      rw [Volume.indirect, dinodes_view_self]
    have inPool : Pool store.sb ((store.icache ip).dinode.addrs indirectSlot).toNat := by
      rw [← isIndirect]
      have holds := Owned.held_of_ne_zero
        (show (store.view ip).blockAt ((store.icache ip).inum, none) ≠ 0 by
          rw [Volume.blockAt, isIndirect]
          exact nonzero)
      exact editing.owned.allocation.inside _ _ holds
    have block : (store.view ip).data ((store.view ip).indirect (store.icache ip).inum) =
        store.blocks ((store.icache ip).dinode.addrs indirectSlot).toNat := by
      rw [isIndirect]
      exact data_of_pool inPool
    have entries : ∀ entry ∈ List.range NINDIRECT,
        (store.view ip).held ((store.icache ip).inum, some (NDIRECT + entry)) =
          if (store.blocks ((store.icache ip).dinode.addrs indirectSlot).toNat).getLE (4 * entry) 4 =
            0 then none
          else some ((store.blocks
            ((store.icache ip).dinode.addrs indirectSlot).toNat).getLE (4 * entry) 4) := by
      intro entry member
      rw [Volume.held, Volume.blockAt, address_indirect _ _ (List.mem_range.mp member), block]
    refine (itruncEntries_wp editing.layout editing.inOp editing.owned.allocation
      List.nodup_range entries).mono ?_ fun _ _ => id
    rintro _ middle ⟨dropped, allocation⟩
    exact itruncSlot_indirect_wp editing present dropped allocation

/-! ## `itrunc` -/

/-- The inode has lost all its blocks and is on the disk. -/
structure Truncated (tracked : Prop) (before after : Store) (ip : Index) : Prop where
  editing : Editing tracked after ip
  edited : Edited before after ip
  coherent : after.view ip = after.volume
  dinode : (after.icache ip).dinode =
    { (before.icache ip).dinode with size := 0, addrs := fun _ => 0 }
  others : ∀ other, other ≠ (before.icache ip).inum →
    after.volume.dinodes other = before.volume.dinodes other
  data : after.volume.data = before.volume.data

theorem itrunc_wp (editing : Editing tracked store ip) :
    Wp (itrunc ip) store fun _ after => Truncated tracked store after ip := by
  have direct : indirectSlot ∉ (List.finRange NDIRECT).map Fin.castSucc := by
    rw [List.mem_map]
    rintro ⟨slot, _, same⟩
    have value := congrArg Fin.val same
    have bound := slot.isLt
    rw [Fin.val_castSucc] at value
    have isLast : indirectSlot.val = NDIRECT := rfl
    omega
  rw [itrunc]
  refine (itruncSlots_wp editing direct).seq ?_
  rintro _ first ⟨trimmed, addrs⟩
  refine (itruncIndirect_wp trimmed.editing).seq ?_
  rintro _ second ⟨trimmedMore, addrsMore⟩
  have both := trimmed.trans trimmedMore
  have cleared : (second.icache ip).dinode.addrs = fun _ => 0 := by
    funext slot
    rw [addrsMore]
    by_cases isIndirect : slot = indirectSlot
    · rw [isIndirect, update_self]
    · rw [update_of_ne isIndirect, addrs, if_pos]
      exact List.mem_map.mpr ⟨⟨slot.val, val_lt_of_ne_indirectSlot isIndirect⟩,
        List.mem_finRange _, rfl⟩
  rw [wp_bind, wp_setDinode]
  generalize isThird : second.withDinode ip (fun dinode => { dinode with size := 0 }) = third
  have assigned : Editing tracked third ip := by
    rw [← isThird]
    exact both.editing.withDinode (fun _ => rfl) fun _ => rfl
  refine (iupdate_wp assigned.inOp).mono ?_ fun _ _ => id
  intro _ after isAfter
  subst after
  have edited : Edited store third ip := by
    rw [← isThird]
    exact both.edited.trans (Edited.withDinode second ip _)
  have sameVolume : third.volume = second.volume := by rw [← isThird, volume_withDinode]
  have volume := volume_updated assigned.layout assigned.inRange
  refine ⟨assigned.updated, edited.trans (Edited.modified _ _ _ _),
    view_updated assigned.layout assigned.inRange, ?_, ?_, ?_⟩
  · rw [icache_updated, ← isThird, icache_withDinode, both.dinode, cleared]
  · intro other different
    rw [volume, dinodes_view_of_ne (by rw [edited.inum]; exact different), sameVolume, both.dinodes]
  · rw [volume]
    show third.volume.data = _
    rw [sameVolume, both.data]

end

end Fs
end Xv6
