import Prysm.DepositSnapshot.DepositTree

/-!
# Accepted snapshots

`CalculateRoot` reads the hashes of a snapshot from the end and the bits of its count from the
lowest one on, while `fromSnapshotParts` reads both from the front.  The two agree when there is one
hash for every set bit of the count, which neither of them checks: when the hashes run out, the
first stops and the second goes on with empty subtrees, and when there are too many, both ignore the
rest.
-/

namespace Prysm.DepositSnapshot

open List hiding Vector
open Prysm.Library Prysm.Helpers MerkleTreeNode Nat

/-- The number of set bits among the lowest ones. -/
def setBits (width n : ℕ) : ℕ := (List.range width).countP n.testBit

theorem setBits_zero (width : ℕ) : setBits width 0 = 0 := countP_eq_zero.2 fun i _ ↦ by simp

theorem setBits_of_lt {width n : ℕ} (hn : n < 2 ^ width) :
    setBits (width + 1) n = setBits width n := by
  simp [setBits, range_succ, testBit_lt_two_pow hn]

theorem setBits_two_pow_add {width n : ℕ} (hn : n < 2 ^ width) :
    setBits (width + 1) (2 ^ width + n) = setBits width n + 1 := by
  have hlow : (List.range width).countP (2 ^ width + n).testBit = setBits width n :=
    countP_congr fun i hi ↦ by rw [testBit_two_pow_add_gt (mem_range.1 hi)]
  have hhigh : (2 ^ width + n).testBit width = true := by
    rw [testBit_two_pow_add_eq, testBit_lt_two_pow hn]
    rfl
  rw [setBits, range_succ, countP_append, hlow, countP_singleton, if_pos hhigh]

variable {hash : HashFunc} {finalized rest : List Bytes32} {first : Bytes32} {level n : ℕ}

theorem getRoot_zeroNode (depth : ℕ) : (zeroNode depth).getRoot hash = zeroHashes hash depth := by
  unfold getRoot
  split_ifs with hdepth
  · rw [hdepth]
    rfl
  · rfl

theorem fromSnapshotParts_nil (n level : ℕ) :
    fromSnapshotParts [] n level = .ok (.zeroNode level) := by
  rw [fromSnapshotParts]

theorem fromSnapshotParts_zero (finalized : List Bytes32) (level : ℕ) :
    fromSnapshotParts finalized 0 level = .ok (.zeroNode level) := by
  cases finalized <;> cases level <;> rfl

theorem fromSnapshotParts_full (first : Bytes32) (rest : List Bytes32) (level : ℕ) :
    fromSnapshotParts (first :: rest) (2 ^ level) level =
      .ok (.finalizedNode (2 ^ level) first) := by
  cases level with
  | zero => rfl
  | succ level => rw [fromSnapshotParts, if_neg (Nat.two_pow_pos _).ne', if_pos rfl]

/-- The deposits end in the left half. -/
theorem fromSnapshotParts_left (hash : HashFunc) (hn : n < 2 ^ level) {left : MerkleTreeNode}
    (hleft : fromSnapshotParts finalized n level = .ok left) :
    ∃ tree, fromSnapshotParts finalized n (level + 1) = .ok tree ∧
      tree.getRoot hash = hashPair hash (left.getRoot hash) (zeroHashes hash level) ∧
      ∀ result, tree.getFinalized result =
        ((left.getFinalized result).1 % 2 ^ 64, (left.getFinalized result).2) := by
  have hzero (hleft : left = .zeroNode level) : (zeroNode (level + 1)).getRoot hash =
      hashPair hash (left.getRoot hash) (zeroHashes hash level) := by
    rw [hleft, getRoot_zeroNode, getRoot_zeroNode]
    rfl
  cases finalized with
  | nil =>
    obtain rfl := Except.ok.inj ((fromSnapshotParts_nil _ _).symm.trans hleft)
    exact ⟨_, fromSnapshotParts_nil _ _, hzero rfl, fun _ ↦ rfl⟩
  | cons first rest =>
    rcases Nat.eq_zero_or_pos n with rfl | hpos
    · obtain rfl := Except.ok.inj ((fromSnapshotParts_zero _ _).symm.trans hleft)
      exact ⟨_, fromSnapshotParts_zero _ _, hzero rfl, fun _ ↦ rfl⟩
    · refine ⟨.innerNode left (.zeroNode level), ?_, ?_, fun _ ↦ rfl⟩
      · rw [fromSnapshotParts, if_neg hpos.ne', if_neg (by omega), if_pos hn.le, hleft, ok_bind]
      · rw [getRoot, getRoot_zeroNode]

/-- The deposits fill the left half. -/
theorem fromSnapshotParts_right (hn : n < 2 ^ level) {right : MerkleTreeNode}
    (hright : fromSnapshotParts rest n level = .ok right) :
    fromSnapshotParts (first :: rest) (2 ^ level + n) (level + 1) =
      .ok (.innerNode (.finalizedNode (2 ^ level) first) right) := by
  rw [fromSnapshotParts, if_neg (by omega), if_neg (by omega)]
  rcases Nat.eq_zero_or_pos n with rfl | hpos
  · obtain rfl := Except.ok.inj ((fromSnapshotParts_zero _ _).symm.trans hright)
    rw [add_zero, if_pos le_rfl, fromSnapshotParts_full, ok_bind]
  · rw [if_neg (by omega), Nat.add_sub_cancel_left, hright, ok_bind]

theorem calculateRootRound_even (m index : ℕ) (root : Bytes32) (i : ℕ) :
    calculateRootRound hash finalized ⟨2 * m, index, root⟩ i =
      .ok (⟨m, index, hashPair hash root (zeroHashes hash i)⟩, false) := by
  rw [calculateRootRound, if_neg (by dsimp only; omega)]
  simp

theorem calculateRootRound_odd (before : List Bytes32) (m : ℕ) (root : Bytes32) (i : ℕ) :
    calculateRootRound hash (before ++ first :: rest) ⟨2 * m + 1, before.length + 1, root⟩ i =
      .ok (⟨m, before.length, hashPair hash first root⟩, false) := by
  rw [calculateRootRound, if_pos (by dsimp only; omega), if_neg (succ_ne_zero _)]
  rw [Nat.add_sub_cancel, getElem?_append_right le_rfl, Nat.sub_self, getElem?_cons_zero, deref,
    ok_bind, show (2 * m + 1) / 2 = m by omega]

/-- A tree is always rebuilt, with one hash for every set bit of its own count, which may be less
than that of the snapshot.  If there is one for every set bit of the snapshot's, the tree keeps its
hashes and count, and the rounds of `CalculateRoot` up to its level reach its root.  The hashes of
higher bits stand before. -/
theorem exists_fromSnapshotParts (hash : HashFunc) (hlevel : level ≤ depositContractDepth)
    (hn : n < 2 ^ level) :
    ∃ tree count hashes, fromSnapshotParts finalized n level = .ok tree ∧
      (∀ result, tree.getFinalized result = (count, result ++ hashes)) ∧
      count ≤ n ∧ hashes.length = setBits level count ∧
      (finalized.length = setBits level n → count = n ∧ hashes = finalized ∧
        ∀ before m later,
          loop (calculateRootRound hash (before ++ finalized)) (List.range level ++ later)
              ⟨n + 2 ^ level * m, before.length + finalized.length, zeroHashes hash 0⟩ =
            loop (calculateRootRound hash (before ++ finalized)) later
              ⟨m, before.length, tree.getRoot hash⟩) := by
  induction level generalizing n finalized with
  | zero =>
    obtain rfl : n = 0 := by omega
    refine ⟨_, 0, [], fromSnapshotParts_zero _ _, fun _ ↦ by simp [getFinalized], le_rfl, rfl,
      fun hlen ↦ ?_⟩
    obtain rfl := eq_nil_of_length_eq_zero hlen
    exact ⟨rfl, rfl, fun before m later ↦ by simp [getRoot_zeroNode]⟩
  | succ level ih =>
    have hwidth : 2 ^ (level + 1) < 2 ^ 64 :=
      (Nat.pow_le_pow_right (by decide) hlevel).trans_lt (by decide)
    rcases lt_or_ge n (2 ^ level) with hlow | hhigh
    · obtain ⟨left, count, hashes, hleft, hfin, hle, hcount, hall⟩ :=
        @ih finalized n (by omega) hlow
      obtain ⟨tree, htree, hroot, hsame⟩ := fromSnapshotParts_left hash hlow hleft
      refine ⟨tree, count, hashes, htree, fun result ↦ ?_, hle,
        hcount.trans (setBits_of_lt (by omega)).symm, fun hlen ↦ ?_⟩
      · rw [hsame, hfin, mod_eq_of_lt (by omega)]
      · obtain ⟨hcount, hhashes, hloop⟩ := hall (hlen.trans (setBits_of_lt hlow))
        refine ⟨hcount, hhashes, fun before m later ↦ ?_⟩
        rw [range_succ, append_assoc,
          show n + 2 ^ (level + 1) * m = n + 2 ^ level * (2 * m) by ring,
          hloop, singleton_append, loop, calculateRootRound_even, hroot]
    · obtain ⟨m, rfl⟩ := Nat.exists_eq_add_of_le hhigh
      have hbits : setBits (level + 1) (2 ^ level + m) = setBits level m + 1 :=
        setBits_two_pow_add (by omega)
      cases finalized with
      | nil =>
        exact ⟨_, 0, [], fromSnapshotParts_nil _ _, fun _ ↦ by simp [getFinalized], zero_le _,
          (setBits_zero _).symm, fun hlen ↦ absurd (hlen.trans hbits) (succ_ne_zero _).symm⟩
      | cons first rest =>
        obtain ⟨right, count, hashes, hright, hfin, hle, hcount, hall⟩ :=
          @ih rest m (by omega) (by omega)
        refine ⟨_, 2 ^ level + count, first :: hashes, fromSnapshotParts_right (by omega) hright,
          fun result ↦ ?_, by omega, ?_, fun hlen ↦ ?_⟩
        · simp only [getFinalized]
          rw [hfin, mod_eq_of_lt (by omega), append_assoc, singleton_append]
        · rw [length_cons, hcount, setBits_two_pow_add (by omega)]
        · obtain ⟨rfl, rfl, hloop⟩ := hall (succ.inj (hlen.trans hbits))
          refine ⟨rfl, rfl, fun before k later ↦ ?_⟩
          have hround := hloop (before ++ [first]) (2 * k + 1) (level :: later)
          rw [append_assoc, singleton_append, length_append, length_singleton, loop,
            calculateRootRound_odd] at hround
          rw [range_succ, append_assoc, singleton_append, length_cons,
            show 2 ^ level + count + 2 ^ (level + 1) * k = count + 2 ^ level * (2 * k + 1) by ring,
            show before.length + (hashes.length + 1) = before.length + 1 + hashes.length by ring,
            hround]
          rfl

/-- The root of a snapshot is that of the rebuilt tree if the tree has all its hashes. -/
theorem exists_calculateRoot (hash : HashFunc) (snapshot : DepositTreeSnapshot)
    (hn : snapshot.depositCount < 2 ^ depositContractDepth) :
    ∃ tree, fromSnapshotParts snapshot.finalized snapshot.depositCount depositContractDepth =
        .ok tree ∧
      (tree.getFinalized [] = (snapshot.depositCount, snapshot.finalized) ↔
        snapshot.finalized.length = setBits depositContractDepth snapshot.depositCount) ∧
      (tree.getFinalized [] = (snapshot.depositCount, snapshot.finalized) →
        snapshot.calculateRoot hash = .ok (hashPair hash (tree.getRoot hash)
          (uint64ToBytesLittleEndian32 snapshot.depositCount))) := by
  obtain ⟨tree, count, hashes, htree, hfin, -, hcount, hall⟩ :=
    exists_fromSnapshotParts hash le_rfl hn
  have hiff : tree.getFinalized [] = (snapshot.depositCount, snapshot.finalized) ↔
      snapshot.finalized.length = setBits depositContractDepth snapshot.depositCount := by
    rw [hfin []]
    constructor
    · rintro ⟨⟩
      exact hcount
    · intro hlen
      obtain ⟨rfl, rfl, -⟩ := hall hlen
      rfl
  refine ⟨tree, htree, hiff, fun hsame ↦ ?_⟩
  have hrounds := (hall (hiff.1 hsame)).2.2 [] 0 []
  rw [mul_zero, add_zero, length_nil, zero_add, append_nil, nil_append, loop] at hrounds
  rw [DepositTreeSnapshot.calculateRoot, hrounds, ok_bind]

/-- An accepted snapshot is consistent with its tree exactly if it has one hash for every set bit of
its count. -/
theorem fromSnapshot_consistent_iff (hash : HashFunc) (snapshot : DepositTreeSnapshot)
    {tree : DepositTree} (haccepted : fromSnapshot hash snapshot = .ok tree) :
    tree.getRoot hash = snapshot.depositRoot ∧
        tree.tree.getFinalized [] = (snapshot.depositCount, snapshot.finalized) ↔
      snapshot.finalized.length = setBits depositContractDepth snapshot.depositCount := by
  obtain ⟨root, hroot, haccepted⟩ := bind_eq_ok_iff.1 haccepted
  split_ifs at haccepted with hclaimed hmany
  obtain ⟨node, hnode, htree⟩ := bind_eq_ok_iff.1 haccepted
  obtain rfl := Except.ok.inj htree
  have hn : snapshot.depositCount < 2 ^ depositContractDepth := not_le.1 hmany
  obtain ⟨rebuilt, hrebuilt, hiff, hcalculated⟩ := exists_calculateRoot hash snapshot hn
  obtain rfl := Except.ok.inj (hnode.symm.trans hrebuilt)
  refine ⟨fun h ↦ hiff.1 h.2, fun hlen ↦ ⟨?_, hiff.2 hlen⟩⟩
  obtain rfl := Except.ok.inj (hroot.symm.trans (hcalculated (hiff.2 hlen)))
  exact (not_not.1 hclaimed).symm

/-- A hash that adds up the bytes, and one. -/
def byteSumSucc : HashFunc := fun bytes ↦ Vector.replicate 32 (bytes.foldl (· + ·) 1)

/-- A snapshot of one deposit, with some hashes and some claimed root. -/
def oneDeposit (finalized : List Bytes32) (root : UInt8) : DepositTreeSnapshot :=
  ⟨finalized, Vector.replicate 32 root, 1, ⟨Vector.replicate 32 9, 70⟩⟩

/-- A snapshot of one deposit without a hash is accepted, with another root and another count. -/
theorem fromSnapshot_without_hash :
    ∃ tree, fromSnapshot byteSumSucc (oneDeposit [] 2) = .ok tree ∧
      tree.getRoot byteSumSucc ≠ (oneDeposit [] 2).depositRoot ∧
      tree.tree.getFinalized [] = (0, []) :=
  ⟨⟨.zeroNode 32, 1, ⟨Vector.replicate 32 9, 70⟩⟩, by decide +kernel⟩

theorem fromSnapshot_consistent_oneDeposit :
    ∃ tree, fromSnapshot byteSumSucc (oneDeposit [Vector.replicate 32 3] 34) = .ok tree ∧
      tree.getRoot byteSumSucc = Vector.replicate 32 34 ∧
      tree.tree.getFinalized [] = (1, [Vector.replicate 32 3]) := by
  have hok : (fromSnapshot byteSumSucc (oneDeposit [Vector.replicate 32 3] 34)).toBool := by
    decide +kernel
  cases htree : fromSnapshot byteSumSucc (oneDeposit [Vector.replicate 32 3] 34) with
  | error err => simp [htree, Except.toBool] at hok
  | ok tree =>
    exact ⟨tree, rfl, (fromSnapshot_consistent_iff byteSumSucc _ htree).2 (by decide +kernel)⟩

end Prysm.DepositSnapshot
