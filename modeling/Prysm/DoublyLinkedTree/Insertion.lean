import Prysm.DoublyLinkedTree.Sound

/-!
# How an insertion ends

On a sound store `insert` of a new block ends in one of the ways of `InsertResult`: it never panics,
and it takes the new node out again exactly when the traversal of the tree is cancelled.
-/

namespace Prysm.DoublyLinkedTree

open Library Action

variable {c c' : Call}

variable (config : BeaconChainConfig) (block : ROBlock) (payloadHash : Root)
  (justifiedEpoch finalizedEpoch : Epoch)

/-- The slot in which a new block with a known parent arrives, by the second reading of the clock.
-/
def Call.arrivalSlot (c : Call) : Slot := slotAt config c.genesisTime (c.clock 1)

/-- The new node is linked to its parent, and boosted if it is the first one that is early in its
slot. -/
def Call.linkAndBoost (c : Call) (parentId : NodeId) (parent : Node) (sss : ℕ) : Call :=
  (c.link
    (nodeFor config block payloadHash justifiedEpoch finalizedEpoch c (some (parentId, parent)))
    parentId).tick.tick.boostFirst config block (c.arrivalSlot config) sss

/-- How `insert` of a new block ends. -/
inductive InsertResult (c : Call) : Except Fault NodeId → Call → Prop
  /-- The parent is not known and there is a tree already. -/
  | refused (hparent : c.nodeByRoot block.parentRoot = none) (htree : c.treeRootNode ≠ none) :
      InsertResult c (.error (.error errInvalidParentRoot))
        ((c.register (nodeFor config block payloadHash justifiedEpoch finalizedEpoch c
          none)).unregister (nodeFor config block payloadHash justifiedEpoch finalizedEpoch c none))
  /-- The first node. -/
  | planted {c' : Call} (hparent : c.nodeByRoot block.parentRoot = none)
      (htree : c.treeRootNode = none)
      (hshrinks : Shrinks (c.plant (nodeFor config block payloadHash justifiedEpoch finalizedEpoch c
        none)) c') : InsertResult c (.ok c.nodes.length) c'
  /-- It is before genesis. -/
  | early {parentId : NodeId} {parent : Node}
      (hparent : c.nodeByRoot block.parentRoot = some parentId)
      (hnode : c.nodes[parentId]? = some parent) (hearly : c.clock 0 < c.genesisTime) :
      InsertResult c (.ok c.nodes.length) (c.link (nodeFor config block payloadHash justifiedEpoch
        finalizedEpoch c (some (parentId, parent))) parentId).tick
  /-- A slot has begun between the two readings of the clock. -/
  | unclocked {parentId : NodeId} {parent : Node} {err err' : Error}
      (hparent : c.nodeByRoot block.parentRoot = some parentId)
      (hnode : c.nodes[parentId]? = some parent) (hgenesis : c.genesisTime ≤ c.clock 0)
      (hclock : sinceSlotStart config (c.arrivalSlot config) c.genesisTime (c.clock 0) =
        .error (.error err)) :
      InsertResult c (.error (.error err')) (c.link (nodeFor config block payloadHash justifiedEpoch
        finalizedEpoch c (some (parentId, parent))) parentId).tick.tick
  /-- The traversal of the tree is cancelled, and the new node is taken out again. -/
  | cancelled {parentId : NodeId} {parent : Node} {sss passed : ℕ} {middle : Call} {err : Error}
      (hparent : c.nodeByRoot block.parentRoot = some parentId)
      (hnode : c.nodes[parentId]? = some parent) (hgenesis : c.genesisTime ≤ c.clock 0)
      (hclock : sinceSlotStart config (c.arrivalSlot config) c.genesisTime (c.clock 0) = .ok sss)
      (hctx : c.ctx = some passed)
      (hpassed : passed < (c.linkAndBoost config block payloadHash justifiedEpoch finalizedEpoch
        parentId parent sss).traversal.length)
      (hreranked : Reranked (c.linkAndBoost config block payloadHash justifiedEpoch finalizedEpoch
        parentId parent sss) middle) :
      InsertResult c (.error (.error err)) ((middle.detach c.nodes.length parentId).forget
        (nodeFor config block payloadHash justifiedEpoch finalizedEpoch c
          (some (parentId, parent))))
  /-- The new node stays. -/
  | inserted {parentId : NodeId} {parent : Node} {sss : ℕ} {left : Option ℕ} {c' : Call}
      (hparent : c.nodeByRoot block.parentRoot = some parentId)
      (hnode : c.nodes[parentId]? = some parent) (hgenesis : c.genesisTime ≤ c.clock 0)
      (hclock : sinceSlotStart config (c.arrivalSlot config) c.genesisTime (c.clock 0) = .ok sss)
      (hctx : c.ctx = left.map (· + (c.linkAndBoost config block payloadHash justifiedEpoch
        finalizedEpoch parentId parent sss).traversal.length))
      (hshrinks : Shrinks (c.linkAndBoost config block payloadHash justifiedEpoch finalizedEpoch
        parentId parent sss) c') : InsertResult c (.ok c.nodes.length) c'

variable {config block} {payload : Root} {just fin : Epoch} {parent : Node}
  {id parentId : NodeId}

theorem boostFirst_eq (currentSlot : Slot) (sss : ℕ) :
    c.boostFirst config block currentSlot sss = { c with
      proposerBoostRoot := (c.boostFirst config block currentSlot sss).proposerBoostRoot } := by
  unfold Call.boostFirst
  split_ifs
  · rfl
  · rfl

theorem linkAndBoost_new {sss : ℕ} (hlt : parentId < c.nodes.length) :
    (c.linkAndBoost config block payload just fin parentId parent
      sss).nodes[c.nodes.length]? = some (nodeFor config block payload just
        fin c (some (parentId, parent))) := by
  rw [Call.linkAndBoost, boostFirst_eq]
  exact link_new hlt

variable (config payload just fin) in
theorem Inserted.of_linkAndBoost (sss : ℕ) (hpar : c.nodeByRoot block.parentRoot = some parentId)
    (hnode : c.nodes[parentId]? = some parent) :
    ∃ middle, Inserted config block payload just fin c middle ∧
      Shrinks middle (c.linkAndBoost config block payload just fin parentId parent sss) := by
  unfold Call.linkAndBoost Call.boostFirst
  split_ifs with hboost
  · exact ⟨_, .boosted hpar hnode hboost.2.2, .of_environment _ _ _⟩
  · exact ⟨_, .linked hpar hnode, .of_environment _ _ _⟩

/-- However it ends, `insert` only takes things away once the node is inserted. -/
theorem InsertResult.exists_inserted {out : Except Fault NodeId}
    (hres : InsertResult config block payload just fin c out c') :
    ∃ middle, Inserted config block payload just fin c middle ∧ Shrinks middle c' := by
  cases hres with
  | refused hpar htree => exact ⟨_, .refused hpar htree, .refl _⟩
  | planted hpar htree hshrinks => exact ⟨_, .planted hpar htree, hshrinks⟩
  | early hpar hnode | unclocked hpar hnode =>
    exact ⟨_, .linked hpar hnode, .of_environment _ _ _⟩
  | @cancelled _ _ sss _ _ _ hpar hnode _ _ _ _ hrank =>
    obtain ⟨middle, hmid, hshrinks⟩ := Inserted.of_linkAndBoost config payload just
      fin sss hpar hnode
    exact ⟨middle, hmid, hshrinks.trans (hrank.recomputed.shrinks.trans
      ((shrinks_detach _ _).trans (.of_forget _)))⟩
  | @inserted _ _ sss _ _ hpar hnode _ _ _ hleft =>
    obtain ⟨middle, hmid, hshrinks⟩ := Inserted.of_linkAndBoost config payload just
      fin sss hpar hnode
    exact ⟨middle, hmid, hshrinks.trans hleft⟩

theorem Sound.recordReceived (hsound : Sound c) (htree : c.treeRootNode ≠ none)
    (hid : id < c.nodes.length) (slot : Slot) :
    wp (recordReceived config id slot) (fun out c' ↦ out = .ok () ∧ Shrinks c c') c := by
  obtain ⟨highest, hlt, hrecv⟩ := hsound.received htree
  apply wp.and _ (shrinks_recordReceived config slot hid c (.refl c))
  rw [DoublyLinkedTree.recordReceived, wp_bind, wp_currentSlot, whenOk_ok, wp_bind, wp_modify,
    whenOk_ok, wp_bind, wp_get, whenOk_ok, wp_bind]
  simp [Call.tick, hrecv, loadLink, load, hlt]

/-- The boost and the traversal of the tree after a new leaf was linked to its parent.  A cancelled
traversal takes the leaf out again. -/
theorem Sound.boostAndUpdate {treeRoot : NodeId} {n : Node} {now : Time} {slot : Slot}
    {post : Except Fault Unit → Call → Prop} (hsound : Sound c)
    (hslot : slotAt config c.genesisTime (c.clock 0) = slot)
    (htree : c.treeRootNode = some treeRoot) (hnode : c.nodes[id]? = some n)
    (hopt : n.optimistic = true) (hlink : n.parent = some parentId) (hleaf : n.children = [])
    (hne : id ≠ parentId)
    (hunclocked : ∀ err err', sinceSlotStart config slot c.genesisTime now =
      .error (.error err) → post (.error (.error err')) c.tick)
    (hcancel : ∀ sss passed middle err, sinceSlotStart config slot c.genesisTime now = .ok sss →
      c.ctx = some passed → passed < (c.tick.boostFirst config block slot sss).traversal.length →
      Reranked (c.tick.boostFirst config block slot sss) middle →
      post (.error (.error err)) ((middle.detach id parentId).forget n))
    (hdone : ∀ sss middle, sinceSlotStart config slot c.genesisTime now = .ok sss →
      c.ctx = middle.ctx.map (· + (c.tick.boostFirst config block slot sss).traversal.length) →
      Reranked (c.tick.boostFirst config block slot sss) middle → post (.ok ()) middle) :
    wp (boostAndUpdate config id block now) post c := by
  simp only [DoublyLinkedTree.boostAndUpdate, wp_bind, wp_currentSlot, whenOk_ok, wp_get, wrap,
    wp_mapOutcome, wp_ofExcept, hslot]
  cases hclock : sinceSlotStart config slot c.tick.genesisTime now with
  | error fault =>
    obtain ⟨err, rfl⟩ := sinceSlotStart_error hclock
    exact hunclocked err _ hclock
  | ok sss =>
    have hboosted : Sound (c.tick.boostFirst config block slot sss) := by
      rw [boostFirst_eq]
      exact ⟨hsound.forward, hsound.index, hsound.parent, hsound.treeRoot, hsound.planted,
        hsound.received⟩
    have hroot : (c.tick.boostFirst config block slot sss).treeRoot = treeRoot := by
      rw [boostFirst_eq]
      simp [Store.treeRoot, Call.tick, htree]
    have hsame : (c.tick.boostFirst config block slot sss).nodes = c.nodes := by
      rw [boostFirst_eq]
      rfl
    have hctx : (c.tick.boostFirst config block slot sss).ctx = c.ctx := by
      rw [boostFirst_eq]
      rfl
    have hlt : treeRoot < (c.tick.boostFirst config block slot sss).nodes.length :=
      hsame ▸ hsound.treeRoot htree
    rw [wrapf_ok, whenOk_ok, wp_bind, wp_modify, whenOk_ok, wp_bind, wp_get, whenOk_ok, orRemove,
      wp_bind, wp_attempt]
    apply (wp_updateBestDescendant hboosted.forward (by rw [Store.depthBound]; lia)
      (hroot.symm ▸ hlt) (.refl _)).mono
    rintro out middle ⟨hrank, hspends, -⟩
    rw [whenOk_ok]
    cases out with
    | ok _ => exact hdone sss middle hclock (hctx ▸ hspends) hrank
    | error fault =>
      obtain ⟨rfl, passed, hpassed, hpassed'⟩ := hspends
      simp only [wp_bind, wp_attempt]
      obtain ⟨n', hnode', hn'⟩ := hrank.node (hsame ▸ hnode)
      apply wp_removeNode_leaf hnode' (by rw [hn', hopt]) (by rw [hn', hlink])
        (by rw [hn', hleaf]) hne
      have hforget : (middle.detach id parentId).forget n' =
          (middle.detach id parentId).forget n := by
        rw [hn']
        rfl
      rw [whenOk_ok, wp_throw, hforget]
      exact hcancel sss passed middle _ hclock (hctx ▸ hpassed') hpassed hrank

/-- On a sound store `insert` of a new block ends in one of these ways. -/
theorem Sound.insertNew (hsound : Sound c) :
    wp (insertNew config block payload just fin)
      (InsertResult config block payload just fin c) c := by
  rw [DoublyLinkedTree.insertNew, wp_bind, wp_get, whenOk_ok]
  cases hpar : c.nodeByRoot block.parentRoot with
  | none =>
    by_cases htree : c.treeRootNode = none
    · simp only [htree, if_true, wp_bind, wp_modify, whenOk_ok]
      have hplanted : Inserted config block payload just fin c _ := .planted hpar htree
      apply ((hsound.of_inserted hplanted).recordReceived (by simp [Call.plant]) hplanted.length_lt
        block.slot).mono
      rintro out last ⟨rfl, hlast⟩
      exact .planted hpar htree hlast
    · simp only [htree, if_false, wp_bind, wp_modify, whenOk_ok, wp_throw]
      exact .refused hpar htree
  | some parentId =>
    obtain ⟨parent, hnode⟩ : ∃ parent, c.nodes[parentId]? = some parent :=
      ⟨_, List.getElem?_eq_getElem (hsound.index hpar)⟩
    simp only [wp_bind, wp_load hnode, whenOk_ok, wp_modify, wp_timeNow, wp_get]
    split_ifs with hearly
    · exact .early hpar hnode hearly
    · have hgen : c.genesisTime ≤ c.clock 0 := not_lt.1 hearly
      have hlinked : Sound (c.link (nodeFor config block payload just fin c
          (some (parentId, parent))) parentId) := hsound.of_inserted (.linked hpar hnode)
      obtain ⟨treeRoot, htree⟩ := Option.ne_none_iff_exists'.1 (hsound.planted hpar)
      rw [wp_bind]
      apply Sound.boostAndUpdate (c := (c.link (nodeFor config block payload just
        fin c (some (parentId, parent))) parentId).tick)
        hlinked rfl htree (link_new (hsound.index hpar)) rfl rfl rfl (hsound.index hpar).ne'
      · intro err err' hclock
        exact .unclocked hpar hnode hgen hclock
      · intro sss passed middle err hclock hctx hpassed hrank
        exact .cancelled hpar hnode hgen hclock hctx hpassed hrank
      · intro sss middle hclock hctx hrank
        obtain ⟨start, hstart, hshrinks⟩ := Inserted.of_linkAndBoost config payload
          just fin sss hpar hnode
        have hmid : Shrinks start middle := hshrinks.trans hrank.recomputed.shrinks
        have hsound' : Sound middle := (hsound.of_inserted hstart).of_shrinks hmid
        have hid : c.nodes.length < middle.nodes.length := hmid.size ▸ hstart.length_lt
        have htree' : middle.treeRootNode ≠ none := by
          rw [hrank.recomputed.shrinks.treeRootNode_eq, boostFirst_eq]
          exact hsound.planted hpar
        rw [whenOk_ok, wp_bind]
        apply (hsound'.recordReceived htree' hid block.slot).mono
        rintro out last ⟨rfl, hlast⟩
        exact .inserted hpar hnode hgen hclock hctx (hrank.recomputed.shrinks.trans hlast)

end Prysm.DoublyLinkedTree
