import Xv6.Fs.ByteArray

namespace Xv6
namespace Fs

open Foundation Function
open Buffer (Block Stop)

/-!
# A write fits into its operation

`filewrite` cuts a write into pieces that should each fit into one operation of
the log.  To bound the blocks that `writei` logs, the indirect block is paid for
in advance: `load` counts the logged blocks together with what the indirect
block can still add to them.  A round of the loop then adds at most two, for the
data block and the bitmap block of its allocation, and at most one if the data
block is there already.
-/

/-- What the indirect block can still add to the logged blocks: a new block and
its bitmap block, or itself, or nothing. -/
def indirectCost (store : Store) (ip : Index) : Nat :=
  if (store.icache ip).dinode.addrs indirectSlot = 0 then 2
  else if ((store.icache ip).dinode.addrs indirectSlot).toNat ∈ store.logged then 0 else 1

/-- The logged blocks, and what the indirect block can still add. -/
def load (store : Store) (ip : Index) : Nat :=
  store.logged.length + indirectCost store ip

/-- What it adds to the logged blocks to log this one. -/
def logCost (store : Store) (b : Nat) : Nat :=
  if b ∈ store.logged then 0 else 1

section

variable {tracked : Prop} {store after : Store} {ip : Index} {b : Nat} {update : Block → Block}

/-! ## Logging one block -/

theorem logged_modified : (store.modified b update).logged =
    if b ∈ store.logged then store.logged else store.logged ++ [b] := rfl

theorem mem_logged_modified : b ∈ (store.modified b update).logged := by
  rw [logged_modified]
  split
  · assumption
  · exact List.mem_append_right _ List.mem_cons_self

theorem mem_logged_of_mem {other : Nat} (member : other ∈ store.logged) :
    other ∈ (store.modified b update).logged := by
  rw [logged_modified]
  split
  · exact member
  · exact List.mem_append_left _ member

theorem length_logged_modified :
    (store.modified b update).logged.length = store.logged.length + logCost store b := by
  rw [logged_modified, logCost]
  split
  · rfl
  · rw [List.length_append, List.length_singleton]

theorem logCost_le : logCost store b ≤ 1 := by
  rw [logCost]
  split
  · exact Nat.zero_le 1
  · exact Nat.le_refl 1

theorem logCost_eq_zero (member : b ∈ store.logged) : logCost store b = 0 :=
  if_pos member

theorem indirectCost_modified :
    indirectCost (store.modified b update) ip ≤ indirectCost store ip := by
  rw [indirectCost, indirectCost, Store.icache_modified]
  split
  · exact Nat.le_refl 2
  · by_cases logged : ((store.icache ip).dinode.addrs indirectSlot).toNat ∈ store.logged
    · rw [if_pos logged, if_pos (mem_logged_of_mem logged)]
    · rw [if_neg logged]
      split
      · exact Nat.zero_le 1
      · exact Nat.le_refl 1

theorem load_modified : load (store.modified b update) ip ≤ load store ip + logCost store b := by
  have cost : indirectCost (store.modified b update) ip ≤ _ := indirectCost_modified
  rw [load, load, length_logged_modified]
  omega

theorem load_modified_indirect (present : (store.icache ip).dinode.addrs indirectSlot ≠ 0)
    (isIndirect : b = ((store.icache ip).dinode.addrs indirectSlot).toNat) :
    load (store.modified b update) ip ≤ load store ip := by
  have paid : indirectCost (store.modified b update) ip = 0 := by
    rw [indirectCost, Store.icache_modified, if_neg present, ← isIndirect,
      if_pos mem_logged_modified]
  have before : indirectCost store ip = logCost store b := by
    rw [indirectCost, if_neg present, ← isIndirect, logCost]
  rw [load, load, length_logged_modified, paid, before]
  exact Nat.le_refl _

theorem mem_logged_allocated : b ∈ (store.allocated b).logged :=
  mem_logged_modified

theorem length_logged_allocated : (store.allocated b).logged.length ≤ store.logged.length + 2 := by
  have first := @logCost_le store (store.sb.BBLOCK b)
  have second := @logCost_le (store.modified (store.sb.BBLOCK b) (markBit (b % BPB))) b
  rw [Store.allocated, length_logged_modified, length_logged_modified]
  omega

theorem load_allocated : load (store.allocated b) ip ≤ load store ip + 2 := by
  have cost : indirectCost (store.allocated b) ip ≤ indirectCost store ip :=
    Nat.le_trans indirectCost_modified indirectCost_modified
  have length := @length_logged_allocated store b
  rw [load, load]
  omega

theorem load_withDinode {assign : Dinode → Dinode}
    (same : (assign (store.icache ip).dinode).addrs indirectSlot =
      (store.icache ip).dinode.addrs indirectSlot) :
    load (store.withDinode ip assign) ip = load store ip := by
  have logged : (store.withDinode ip assign).logged = store.logged := rfl
  rw [load, load, indirectCost, indirectCost, Store.icache_withDinode, logged, same]

/-! ## `bmap` -/

theorem bmapSlot_load (inOp : store.inOp = true) {slot : Fin (NDIRECT + 1)}
    (direct : slot ≠ indirectSlot) :
    Wp (bmapSlot ip slot) store (fun b after => load after ip + logCost after b ≤ load store ip + 2)
      fun _ after => load after ip ≤ load store ip := by
  simp only [bmapSlot, wp_bind, wp_get, wp_ite, wp_pure]
  split
  · refine (balloc_wp inOp).mono ?_ ?_
    · rintro b _ ⟨_, _, rfl⟩
      simp only [wp_setDinode]
      have member : b ∈ ((store.allocated b).withDinode ip fun dinode =>
          { dinode with addrs := update dinode.addrs slot (BitVec.ofNat 32 b) }).logged :=
        mem_logged_allocated
      rw [logCost_eq_zero member, load_withDinode (update_of_ne direct.symm _ _)]
      exact load_allocated
    · rintro stop _ ⟨_, rfl, _⟩
      exact Nat.le_refl _
  · exact Nat.add_le_add_left (Nat.le_trans logCost_le (by decide)) _

theorem bmapSlot_indirect_load (editing : Editing tracked store ip) :
    Wp (bmapSlot ip indirectSlot) store (fun _ after => load after ip ≤ load store ip)
      fun _ after => load after ip ≤ load store ip := by
  simp only [bmapSlot, wp_bind, wp_get, wp_ite, wp_pure]
  split
  · rename_i missing
    refine (balloc_wp editing.inOp).mono ?_ ?_
    · rintro b _ ⟨inside, unused, rfl⟩
      have nonzero := pool_ne_zero (editing.owned.pool_of_unused inside unused)
      have isAddr : (BitVec.ofNat 32 b).toNat = b :=
        Nat.mod_eq_of_lt (Nat.lt_trans inside editing.layout.small)
      have present : BitVec.ofNat 32 b ≠ 0 := by
        intro zero
        rw [zero] at isAddr
        exact nonzero isAddr.symm
      have before : indirectCost store ip = 2 := if_pos missing
      have paid : indirectCost ((store.allocated b).withDinode ip fun dinode => { dinode with
          addrs := update dinode.addrs indirectSlot (BitVec.ofNat 32 b) }) ip = 0 := by
        rw [indirectCost, Store.icache_withDinode]
        simp only [update_self]
        rw [if_neg present, isAddr]
        exact if_pos mem_logged_allocated
      simp only [wp_setDinode]
      rw [load, load, paid, before]
      exact length_logged_allocated
    · rintro stop _ ⟨_, rfl, _⟩
      exact Nat.le_refl _
  · exact Nat.le_refl _

theorem bmapEntry_load (inOp : store.inOp = true) {indirect entry : Nat}
    (present : (store.icache ip).dinode.addrs indirectSlot ≠ 0)
    (isIndirect : indirect = ((store.icache ip).dinode.addrs indirectSlot).toNat) :
    Wp (bmapEntry indirect entry) store
      (fun b after => load after ip + logCost after b ≤ load store ip + 2)
      fun _ after => load after ip ≤ load store ip := by
  simp only [bmapEntry, bread, wp_bind, wp_get, wp_ite, wp_pure]
  split
  · refine (balloc_wp inOp).mono ?_ ?_
    · rintro b _ ⟨_, _, rfl⟩
      have inOpStill : (store.allocated b).inOp = true := inOp
      refine (modifyBlock_wp inOpStill _ _).total ?_
      rintro _ _ rfl
      rw [logCost_eq_zero (mem_logged_of_mem mem_logged_allocated)]
      exact Nat.le_trans (load_modified_indirect present isIndirect) load_allocated
    · rintro stop _ ⟨_, rfl, _⟩
      exact Nat.le_refl _
  · exact Nat.add_le_add_left (Nat.le_trans logCost_le (by decide)) _

theorem bmap_load (editing : Editing tracked store ip) {bn : Nat} (inside : bn < MAXFILE) :
    Wp (bmap ip bn) store (fun b after => load after ip + logCost after b ≤ load store ip + 2)
      fun _ after => load after ip ≤ load store ip := by
  have last : MAXFILE = NDIRECT + NINDIRECT := rfl
  rw [bmap]
  by_cases direct : bn < NDIRECT
  · rw [if_pos direct]
    apply bmapSlot_load editing.inOp
    intro same
    have index : bn % (NDIRECT + 1) = NDIRECT := congrArg Fin.val same
    rw [Nat.mod_eq_of_lt (by omega)] at index
    omega
  · rw [if_neg direct, if_pos (by omega), wp_bind]
    refine ((bmapSlot_wp editing indirectSlot).and (bmapSlot_indirect_load editing)).mono ?_
      fun _ _ both => both.2
    rintro indirect middle ⟨⟨edit, _, _, isIndirect, nonzero⟩, paid⟩
    have present : (middle.icache ip).dinode.addrs indirectSlot ≠ 0 := by
      intro zero
      rw [zero] at isIndirect
      exact nonzero isIndirect
    refine (bmapEntry_load edit.inOp present isIndirect).mono ?_ ?_
    · intro b after bound
      exact Nat.le_trans bound (Nat.add_le_add_right paid 2)
    · intro stop after bound
      exact Nat.le_trans bound paid

theorem iupdate_logs : Wp (iupdate ip) store
    (fun _ after => after.logged.length ≤ store.logged.length + 1)
    fun _ after => after.logged.length ≤ store.logged.length + 1 := by
  simp only [iupdate, modifyBlock, wp_bind, wp_get, wp_ite, wp_set, wp_throw]
  split
  · have logged : (store.modified (store.sb.IBLOCK (store.icache ip).inum) id).logged.length = _ :=
      length_logged_modified
    exact Nat.le_trans (Nat.le_of_eq logged) (Nat.add_le_add_left logCost_le _)
  · exact Nat.le_succ _

/-! ## The loop of `writei` -/

/-- One, if there is a round to come and its block is there already. -/
def saved (store : Store) (ip : Index) (tot off n : Nat) : Nat :=
  if tot < n ∧ (store.view ip).address (store.icache ip).inum (off / BSIZE) ≠ 0 then 1 else 0

theorem saved_le {tot off n : Nat} : saved store ip tot off n ≤ 1 := by
  rw [saved]
  split
  · exact Nat.le_refl 1
  · exact Nat.zero_le 1

theorem rounds_pos {tot off n rounds : Nat}
    (few : tot < n → off % BSIZE + (n - tot) ≤ rounds * BSIZE) (more : tot < n) : 1 ≤ rounds := by
  apply Nat.pos_of_ne_zero
  intro zero
  have none := few more
  rw [zero, Nat.zero_mul] at none
  omega

theorem bmap_round (editing : Editing tracked store ip) {off : Nat} (tot n : Nat)
    (inside : off / BSIZE < MAXFILE) :
    Wp (bmap ip (off / BSIZE)) store
      (fun addr after => Editing tracked after ip ∧
        addr = (after.view ip).address (after.icache ip).inum (off / BSIZE) ∧ addr ≠ 0 ∧
        load after ip + logCost after addr + saved store ip tot off n ≤ load store ip + 2)
      fun _ after => load after ip + saved store ip tot off n ≤ load store ip := by
  by_cases mapped : (store.view ip).address (store.icache ip).inum (off / BSIZE) ≠ 0
  · refine (bmap_of_mapped editing.owned mapped).total ?_
    rintro addr after ⟨isAfter, isAddr⟩
    rw [isAfter]
    refine ⟨editing, isAddr, isAddr ▸ mapped, ?_⟩
    have cost := @logCost_le store addr
    have atMost := @saved_le store ip tot off n
    omega
  · have nothing : saved store ip tot off n = 0 := if_neg fun both => mapped both.2
    rw [nothing]
    refine ((bmap_wp editing inside).and (bmap_load editing inside)).mono ?_ fun _ _ both => both.2
    rintro addr after ⟨⟨edit, _, _, isAddr, present⟩, bound⟩
    exact ⟨edit, isAddr, present, bound⟩

variable {src : Source}

/-- The rounds of the loop telescope.  Only the first one can be for a part of a
block at its end. -/
theorem writeiFrom_load (editing : Editing tracked store ip) {tot off n fuel rounds : Nat}
    (inside : off + (n - tot) ≤ MAXFILE * BSIZE)
    (few : tot < n → off % BSIZE + (n - tot) ≤ rounds * BSIZE) :
    Wp (writeiFrom ip src tot off n fuel) store
      (fun _ after => load after ip + saved store ip tot off n ≤ load store ip + 2 * rounds)
      fun _ after => load after ip + saved store ip tot off n ≤ load store ip + 2 * rounds := by
  have done : ∀ store tot off, ¬ tot < n → saved store ip tot off n = 0 :=
    fun _ _ _ ended => if_neg fun both => ended both.1
  induction fuel generalizing store tot off rounds with
  | zero =>
    rw [writeiFrom, wp_pure]
    by_cases more : tot < n
    · have some := rounds_pos few more
      have atMost := @saved_le store ip tot off n
      omega
    · rw [done store tot off more]
      exact Nat.le_add_right _ _
  | succ fuel ih =>
    simp only [writeiFrom, wp_ite]
    split
    · rename_i more
      have below : off / BSIZE < MAXFILE :=
        Nat.div_lt_of_lt_mul (by rw [Nat.mul_comm]; omega)
      have offset := Nat.mod_lt off (by decide : 0 < BSIZE)
      have some := rounds_pos few more
      rw [wp_bind]
      refine (bmap_round editing tot n below).mono ?_ ?_
      · rintro addr middle ⟨edit, isAddr, present, bound⟩
        generalize isCount : min (n - tot) (BSIZE - off % BSIZE) = m
        rw [wp_ite]
        split
        · rw [wp_bind, scribble_wp, wp_pure]
          have same : load (middle.scribbled addr (src.copy tot off (src.reach tot m))) ip =
              load middle ip := rfl
          omega
        · rename_i full
          have isCopied : src.reach tot m = m := by
            have atMost := src.reach_le tot m
            omega
          rw [wp_bind]
          refine ((writeiRound_wp edit isAddr present (by omega) isCopied).and
            (modifyBlock_wp edit.inOp _ _)).mono ?_ fun _ _ both => both.1.elim
          rintro _ next ⟨⟨edit', _, _, _⟩, isNext⟩
          have logs : load next ip ≤ load middle ip + logCost middle addr := by
            rw [isNext]
            exact load_modified
          have fewer : tot + m < n →
              (off + m) % BSIZE + (n - (tot + m)) ≤ (rounds - 1) * BSIZE := by
            intro further
            have total := few more
            have whole := Nat.div_add_mod off BSIZE
            have next : off + m = BSIZE * (off / BSIZE + 1) := by
              rw [Nat.mul_succ]
              omega
            rw [next, Nat.mul_mod_right, Nat.sub_mul]
            omega
          have rest : Wp (writeiFrom ip src (tot + m) (off + m) n fuel) next _ _ :=
            ih edit' (by omega) fewer
          refine rest.mono ?_ ?_
          · intro _ after telescoped
            omega
          · intro _ after telescoped
            omega
      · intro stop after bound
        exact Nat.le_trans bound (Nat.le_add_right _ _)
    · rename_i ended
      rw [wp_pure, done store tot off ended]
      exact Nat.le_add_right _ _

/-- A write of three blocks has three rounds, or four if it begins inside a
block; that block is there already, since the file has no holes. -/
theorem budget {off n : Nat} (nothing : store.logged = [])
    (holeFree : HoleFree (store.view ip) (store.icache ip).inum)
    (inside : off ≤ (store.icache ip).dinode.size.toNat) (small : n ≤ 3 * BSIZE) :
    ∃ rounds, (0 < n → off % BSIZE + (n - 0) ≤ rounds * BSIZE) ∧
      load store ip + 2 * rounds ≤ 9 + saved store ip 0 off n := by
  have advance : load store ip ≤ 2 := by
    rw [load, nothing, indirectCost]
    split
    · exact Nat.le_refl 2
    · split
      · decide
      · decide
  have remainder := Nat.mod_lt off (by decide : 0 < BSIZE)
  by_cases aligned : off % BSIZE = 0
  · exact ⟨3, by omega, by omega⟩
  · refine ⟨if 0 < n then 4 else 0, ?_, ?_⟩
    · intro some
      rw [if_pos some]
      omega
    · by_cases some : 0 < n
      · have whole := Nat.div_add_mod off BSIZE
        have begins : off / BSIZE * BSIZE < (store.icache ip).dinode.size.toNat := by
          rw [Nat.mul_comm]
          omega
        have present := holeFree.mapped (off / BSIZE) (by rwa [Store.dinodes_view_self])
        have one : saved store ip 0 off n = 1 := if_pos ⟨some, present⟩
        rw [if_pos some, one]
        omega
      · rw [if_neg some]
        omega

/-- The blocks that one call of `writei` passes to `log_write` fit into an
operation. -/
theorem writei_fits_operation (prepared : Prepared store ip) {off n : Nat}
    (inside : off ≤ (store.icache ip).dinode.size.toNat)
    (small : n ≤ (MAXOPBLOCKS - 1 - 1 - 2) / 2 * BSIZE) :
    Wp (writei ip src off n) { store with logged := [] }
      (fun _ after => after.logged.length ≤ MAXOPBLOCKS)
      fun _ after => after.logged.length ≤ MAXOPBLOCKS := by
  have most : (MAXOPBLOCKS - 1 - 1 - 2) / 2 * BSIZE = 3 * BSIZE := rfl
  generalize isBegun : { store with logged := [] } = begun
  have nothing : begun.logged = [] := by rw [← isBegun]
  have isSize : (begun.icache ip).dinode.size = (store.icache ip).dinode.size := by rw [← isBegun]
  have editing : Editing False begun ip := by
    rw [← isBegun]
    exact ⟨prepared.layout, prepared.inOp, prepared.inRange, prepared.typed,
      prepared.editing.owned, False.elim⟩
  have holeFree : HoleFree (begun.view ip) (begun.icache ip).inum := by
    rw [← isBegun]
    show HoleFree (store.view ip) (store.icache ip).inum
    rw [Store.view_eq_volume prepared.coherent]
    exact prepared.holeFree _ (prepared.coherent ▸ prepared.typed)
  have none : begun.logged.length ≤ MAXOPBLOCKS := by
    rw [nothing]
    decide
  have bounded := holeFree.bounded
  rw [Store.dinodes_view_self] at bounded
  have limit : MAXFILE * BSIZE + 3 * BSIZE < 2 ^ 32 := by decide
  rw [writei, wp_bind, wp_get, wp_ite]
  split
  · rw [wp_pure]
    exact none
  · rw [wp_ite]
    split
    · rw [wp_pure]
      exact none
    · rename_i fits
      rw [Nat.mod_eq_of_lt (by omega)] at fits
      rw [wp_ite]
      split
      · have insideStill : off ≤ (begun.icache ip).dinode.size.toNat := by rwa [isSize]
        rcases budget nothing holeFree insideStill small with ⟨rounds, few, total⟩
        rw [wp_bind]
        refine (writeiFrom_load editing (by omega) few).mono ?_ ?_
        · intro final after telescoped
          rw [load] at telescoped
          rw [wp_bind, wp_setDinode, wp_bind]
          have length : (after.withDinode ip fun dinode =>
              if final > dinode.size.toNat then { dinode with size := BitVec.ofNat 32 final }
              else dinode).logged.length ≤ 9 := by
            show after.logged.length ≤ 9
            omega
          refine iupdate_logs.mono ?_ ?_
          · intro _ last one
            rw [wp_pure]
            exact Nat.le_trans one (Nat.succ_le_succ length)
          · intro _ last one
            exact Nat.le_trans one (Nat.succ_le_succ length)
        · intro stop after telescoped
          rw [load] at telescoped
          exact Nat.le_trans (by omega : after.logged.length ≤ 9) (by decide)
      · rw [wp_pure]
        exact none

/-- On the small image, an entry is appended to the root directory. -/
theorem writei_fits_operation_sample : Prepared Sample.locked 0 ∧
    Wp (writei 0 (.kernel fun _ => 65) 48 16) { Sample.locked with logged := [] }
      (fun _ after => after.logged.length ≤ MAXOPBLOCKS)
      fun _ after => after.logged.length ≤ MAXOPBLOCKS := by
  have prepared : Prepared Sample.locked 0 :=
    ⟨Sample.layout, rfl, by decide, Sample.coherent, by decide, Sample.owned, Sample.holeFree⟩
  exact ⟨prepared, writei_fits_operation prepared (by decide) (by decide)⟩

end

end Fs
end Xv6
