import Prysm.Validator.Filesystem
import Mathlib.Data.List.ReduceOption

/-!
# Safety of the minimal slashing protection database

The three numbers of a file are high-water marks: every call only raises them, and every attestation
and block that was accepted or imported is at or below them.  An accepted attestation has a source
at or above the mark and a target above it, so it is in conflict with none of them.

An import is the exception.  A null block ends the import of the blocks of an item, so later blocks
are lost, and an import that fails after it has written leaves the marks raised.
-/

namespace Prysm.Validator.Filesystem

open List Prysm.Library Action Option

/-! ### Marks -/

/-- A mark that is at or above another; no mark is below every mark. -/
def Below (mark other : Option ℕ) : Prop := ∀ n ∈ mark, ∃ m ∈ other, n ≤ m

variable (mark : Option ℕ)

theorem Below.refl : Below mark mark := fun n hn ↦ ⟨n, hn, le_rfl⟩

theorem Below.trans {first second third : Option ℕ} (hfirst : Below first second)
    (hsnd : Below second third) : Below first third := by
  intro n hn
  obtain ⟨m, hm, hnm⟩ := hfirst n hn
  obtain ⟨k, hk, hmk⟩ := hsnd m hm
  exact ⟨k, hk, hnm.trans hmk⟩

theorem below_none : Below none mark := by
  rintro n ⟨⟩

theorem below_some {n m : ℕ} : Below (some n) (some m) ↔ n ≤ m := by
  simp [Below]

/-- The marks of a file are at or above those of another. -/
structure ValidatorSlashingProtection.Raises (saved next : ValidatorSlashingProtection) : Prop where
  slot : Below saved.latestSignedBlockSlot next.latestSignedBlockSlot
  source : saved.lastSignedAttestationSourceEpoch ≤ next.lastSignedAttestationSourceEpoch
  target : Below saved.lastSignedAttestationTargetEpoch next.lastSignedAttestationTargetEpoch

/-- No file is lost, and no mark of a file is lowered. -/
def Grows (store next : Store) : Prop :=
  ∀ pubKey saved, store.validatorSlashingProtection pubKey = some saved →
    ∃ raised, next.validatorSlashingProtection pubKey = some raised ∧ saved.Raises raised

theorem Grows.refl (store : Store) : Grows store store :=
  fun _ saved hsaved ↦ ⟨saved, hsaved, .refl _, le_rfl, .refl _⟩

theorem Grows.trans {first second third : Store} (hfirst : Grows first second)
    (hsnd : Grows second third) : Grows first third := by
  intro pubKey saved hsaved
  obtain ⟨middle, hmid, hraise⟩ := hfirst pubKey saved hsaved
  obtain ⟨last, hlast, hraise'⟩ := hsnd pubKey middle hmid
  exact ⟨last, hlast, hraise.slot.trans hraise'.slot, hraise.source.trans hraise'.source,
    hraise.target.trans hraise'.target⟩

variable {store next : Store} {pubKey : PubKey} {record : ValidatorSlashingProtection}
  {att : IndexedAttestation} {atts : List (Option IndexedAttestation)} {slot : Slot}

/-- Saving a file that raises the marks of the key. -/
theorem grows_save {found : Option ValidatorSlashingProtection}
    (hfound : store.validatorSlashingProtection pubKey = found)
    (hraise : ∀ saved, found = some saved → saved.Raises record) :
    Grows store (store.saveValidatorSlashingProtection pubKey record) := by
  intro other saved hsaved
  by_cases hother : other = pubKey
  · subst hother
    exact ⟨record, Function.update_self _ _ _, hraise saved (hfound.symm.trans hsaved)⟩
  · exact ⟨saved, (Function.update_of_ne hother _ _).trans hsaved, .refl _, le_rfl, .refl _⟩

/-- The attestation is at or below the marks of the key. -/
def CoversAttestation (store : Store) (pubKey : PubKey) (att : IndexedAttestation) : Prop :=
  ∃ saved target, store.validatorSlashingProtection pubKey = some saved ∧
    saved.lastSignedAttestationTargetEpoch = some target ∧
      att.source ≤ saved.lastSignedAttestationSourceEpoch ∧ att.target ≤ target

/-- The slot is at or below the mark of the key. -/
def CoversSlot (store : Store) (pubKey : PubKey) (slot : Slot) : Prop :=
  ∃ saved latest, store.validatorSlashingProtection pubKey = some saved ∧
    saved.latestSignedBlockSlot = some latest ∧ slot ≤ latest

theorem CoversAttestation.grows (hcovers : CoversAttestation store pubKey att)
    (hgrows : Grows store next) : CoversAttestation next pubKey att := by
  obtain ⟨saved, target, hsaved, htgt, hsrc, hle⟩ := hcovers
  obtain ⟨raised, hraised, hraise⟩ := hgrows pubKey saved hsaved
  obtain ⟨target', htgt', hle'⟩ := hraise.target target htgt
  exact ⟨raised, target', hraised, htgt', hsrc.trans hraise.source, hle.trans hle'⟩

theorem CoversSlot.grows (hcovers : CoversSlot store pubKey slot) (hgrows : Grows store next) :
    CoversSlot next pubKey slot := by
  obtain ⟨saved, latest, hsaved, hlatest, hle⟩ := hcovers
  obtain ⟨raised, hraised, hraise⟩ := hgrows pubKey saved hsaved
  obtain ⟨latest', hlatest', hle'⟩ := hraise.slot latest hlatest
  exact ⟨raised, latest', hraised, hlatest', hle.trans hle'⟩

theorem coversAttestation_save {target : Epoch}
    (htgt : record.lastSignedAttestationTargetEpoch = some target)
    (hsrc : att.source ≤ record.lastSignedAttestationSourceEpoch) (hle : att.target ≤ target) :
    CoversAttestation (store.saveValidatorSlashingProtection pubKey record) pubKey att :=
  ⟨record, target, Function.update_self _ _ _, htgt, hsrc, hle⟩

theorem coversSlot_save {latest : Slot} (hlatest : record.latestSignedBlockSlot = some latest)
    (hle : slot ≤ latest) :
    CoversSlot (store.saveValidatorSlashingProtection pubKey record) pubKey slot :=
  ⟨record, latest, Function.update_self _ _ _, hlatest, hle⟩

/-! ### Saving -/

theorem attestationError_eq_none {saved : ValidatorSlashingProtection}
    (herror : attestationError saved att = none) :
    saved.lastSignedAttestationSourceEpoch ≤ att.source ∧
      ∀ target, saved.lastSignedAttestationTargetEpoch = some target → target < att.target := by
  unfold attestationError at herror
  grind

/-- An accepted attestation is above the marks, which it raises. -/
theorem saveAttestationForPubKey_ok {att : Option IndexedAttestation}
    (hsave : saveAttestationForPubKey store pubKey att = .ok next) :
    ∃ new, att = some new ∧ Grows store next ∧ CoversAttestation next pubKey new ∧
      ∀ saved, store.validatorSlashingProtection pubKey = some saved →
        saved.lastSignedAttestationSourceEpoch ≤ new.source ∧
          ∀ target, saved.lastSignedAttestationTargetEpoch = some target → target < new.target := by
  unfold saveAttestationForPubKey at hsave
  cases att with
  | none => cases hsave
  | some new =>
    refine ⟨new, rfl, ?_⟩
    cases hsaved : store.validatorSlashingProtection pubKey with
    | none =>
      simp only [hsaved, Except.ok.injEq] at hsave
      subst hsave
      exact ⟨grows_save hsaved nofun, coversAttestation_save rfl le_rfl le_rfl, nofun⟩
    | some saved =>
      simp only [hsaved] at hsave
      cases herror : attestationError saved new with
      | some err => simp [herror] at hsave
      | none =>
        simp only [herror, Except.ok.injEq] at hsave
        subst hsave
        have habove := attestationError_eq_none herror
        refine ⟨grows_save hsaved ?_, coversAttestation_save rfl le_rfl le_rfl, ?_⟩
        · rintro _ ⟨⟩
          exact ⟨.refl _, habove.1, fun target htgt ↦ ⟨new.target, rfl, (habove.2 target htgt).le⟩⟩
        · rintro _ ⟨⟩
          exact habove

/-- An accepted slot is above the mark, which it raises. -/
theorem saveProposalHistoryForSlot_ok
    (hsave : saveProposalHistoryForSlot store pubKey slot = .ok next) :
    Grows store next ∧ CoversSlot next pubKey slot ∧
      ∀ saved, store.validatorSlashingProtection pubKey = some saved →
        ∀ latest, saved.latestSignedBlockSlot = some latest → latest < slot := by
  unfold saveProposalHistoryForSlot at hsave
  cases hsaved : store.validatorSlashingProtection pubKey with
  | none =>
    simp only [hsaved, Except.ok.injEq] at hsave
    subst hsave
    exact ⟨grows_save hsaved nofun, coversSlot_save rfl le_rfl, nofun⟩
  | some saved =>
    have hcases : next = store.saveValidatorSlashingProtection pubKey
        { saved with latestSignedBlockSlot := some slot } ∧
        ∀ latest, saved.latestSignedBlockSlot = some latest → latest < slot := by
      grind
    obtain ⟨rfl, habove⟩ := hcases
    refine ⟨grows_save hsaved ?_, coversSlot_save rfl le_rfl, ?_⟩
    · rintro _ ⟨⟩
      exact ⟨fun latest hlatest ↦ ⟨slot, rfl, (habove latest hlatest).le⟩, le_rfl, .refl _⟩
    · rintro _ ⟨⟩
      exact habove

theorem le_raise (saved incoming : ℕ) :
    saved ≤ raise saved incoming ∧ incoming ≤ raise saved incoming := by
  unfold raise
  grind

/-- The maximum is at or above what the loop starts from and every attestation, none of which lacks
an epoch. -/
theorem maxSourceTargetEpoch_ok {source maxTarget : Epoch}
    (hmax : maxSourceTargetEpoch atts = .ok (source, maxTarget)) :
    ∀ att ∈ atts, ∃ new, att = some new ∧ new.source ≤ source ∧ new.target ≤ maxTarget := by
  unfold maxSourceTargetEpoch at hmax
  generalize ((0, 0) : Epoch × Epoch) = start at hmax
  suffices hstart : (start.1 ≤ source ∧ start.2 ≤ maxTarget) ∧
      ∀ att ∈ atts, ∃ new, att = some new ∧ new.source ≤ source ∧ new.target ≤ maxTarget from
    hstart.2
  induction atts generalizing start with
  | nil =>
    obtain rfl : start = (source, maxTarget) := Except.ok.inj hmax
    exact ⟨⟨le_rfl, le_rfl⟩, fun _ hatt ↦ absurd hatt not_mem_nil⟩
  | cons att atts ih =>
    cases att with
    | none => cases hmax
    | some new =>
      obtain ⟨hle, hrest⟩ := ih _ hmax
      grind

/-- A bulk save raises the marks to cover every attestation of the list. -/
theorem saveAttestationsForPubKey_ok
    (hsave : saveAttestationsForPubKey store pubKey atts = .ok next) :
    Grows store next ∧ ∀ att ∈ atts, ∃ new, att = some new ∧ CoversAttestation next pubKey new := by
  unfold saveAttestationsForPubKey at hsave
  split_ifs at hsave with hnil
  · subst hnil
    obtain rfl := Except.ok.inj hsave
    exact ⟨.refl store, fun _ hatt ↦ absurd hatt not_mem_nil⟩
  · cases hmax : maxSourceTargetEpoch atts with
    | error err => simp [hmax] at hsave
    | ok maxEpochs =>
      obtain ⟨source, maxTarget⟩ := maxEpochs
      have hatts := maxSourceTargetEpoch_ok hmax
      simp only [hmax] at hsave
      cases hsaved : store.validatorSlashingProtection pubKey with
      | none =>
        simp only [hsaved, Except.ok.injEq] at hsave
        subst hsave
        refine ⟨grows_save hsaved nofun, fun att hatt ↦ ?_⟩
        obtain ⟨new, hnew, hsrc, htgt⟩ := hatts att hatt
        exact ⟨new, hnew, coversAttestation_save rfl hsrc htgt⟩
      | some saved =>
        simp only [hsaved, Except.ok.injEq] at hsave
        subst hsave
        have hsrc := le_raise saved.lastSignedAttestationSourceEpoch source
        have htgt : Below saved.lastSignedAttestationTargetEpoch
            (some (saved.lastSignedAttestationTargetEpoch.elim maxTarget (raise · maxTarget))) ∧
            maxTarget ≤
              saved.lastSignedAttestationTargetEpoch.elim maxTarget (raise · maxTarget) := by
          cases saved.lastSignedAttestationTargetEpoch with
          | none => exact ⟨below_none _, le_rfl⟩
          | some target =>
            exact ⟨below_some.2 (le_raise target maxTarget).1, (le_raise target maxTarget).2⟩
        refine ⟨grows_save hsaved ?_, fun att hatt ↦ ?_⟩
        · rintro _ ⟨⟩
          exact ⟨.refl _, hsrc.1, htgt.1⟩
        · obtain ⟨new, hnew, hnewSource, hnewTarget⟩ := hatts att hatt
          exact ⟨new, hnew, coversAttestation_save rfl (hnewSource.trans hsrc.2)
            (hnewTarget.trans htgt.2)⟩

/-! ### Importing -/

variable (signedBlocks : List (Option SignedBlock))
  {atts : List (Option SignedAttestation)} {item : ProtectionData}

/-- The slots of the signed blocks of an item. -/
def slotsOf : List Slot :=
  signedBlocks.reduceOption.filterMap fun sb ↦ (slotFromString sb.slot).toOption

/-- The signed attestations of an item. -/
def attestationsOf (signedAttestations : List (Option SignedAttestation)) :
    List IndexedAttestation :=
  signedAttestations.filterMap fun sa ↦ (attestationOf sa).toOption

theorem exists_of_isOk {ε α : Type*} {result : Except ε α} (hok : result.isOk) :
    ∃ value, result = .ok value := by
  cases result with
  | error err => cases hok
  | ok value => exact ⟨value, rfl⟩

theorem wp_saveUnless (text : String) (save : Store → Except Error Store)
    (post : Except Fault Unit → Store → Prop) (store : Store) :
    wp (saveUnless text save) post store ↔
      match save store with
      | .ok saved => post (.ok ()) saved
      | .error err => post (if mentions text err then .ok () else .error (.error err)) store := by
  have hrun : (saveUnless text save).runFrom store = saveUnless text save store := rfl
  rw [wp, hrun, saveUnless]
  cases save store <;> rfl

theorem eq_ok_of_toOption {ε α : Type*} {result : Except ε α} {value : α}
    (hvalue : result.toOption = some value) : result = .ok value := by
  cases result with
  | error err => cases hvalue
  | ok other => exact congrArg Except.ok (some.inj hvalue)

/-- A slot is refused because the mark covers it, and the error says that it could not be signed. -/
theorem saveProposalHistoryForSlot_error {err : Error}
    (hsave : saveProposalHistoryForSlot store pubKey slot = .error err) :
    mentions "could not sign proposal" err ∧ CoversSlot store pubKey slot := by
  unfold saveProposalHistoryForSlot at hsave
  cases hsaved : store.validatorSlashingProtection pubKey with
  | none => simp [hsaved] at hsave
  | some saved =>
    simp only [hsaved] at hsave
    cases hlatest : saved.latestSignedBlockSlot with
    | none => simp [hlatest] at hsave
    | some latest =>
      simp only [hlatest] at hsave
      split_ifs at hsave with hle
      obtain rfl := Except.error.inj hsave
      have hmentions : "could not sign proposal".toList <:+: lowerSlotMessage.toList := by decide
      exact ⟨decide_eq_true hmentions, saved, latest, hsaved, hlatest, hle⟩

/-- Whether a slot is saved or refused, the mark covers it afterwards. -/
theorem wp_saveSlot (store : Store) (pubKey : PubKey) (slot : Slot) :
    wp (saveUnless "could not sign proposal" fun store ↦
      saveProposalHistoryForSlot store pubKey slot)
      (fun out last ↦ out = .ok () ∧ Grows store last ∧ CoversSlot last pubKey slot)
      store := by
  rw [wp_saveUnless]
  cases hsave : saveProposalHistoryForSlot store pubKey slot with
  | ok saved =>
    obtain ⟨hgrows, hcovers, -⟩ := saveProposalHistoryForSlot_ok hsave
    exact ⟨rfl, hgrows, hcovers⟩
  | error err =>
    obtain ⟨hmentions, hcovers⟩ := saveProposalHistoryForSlot_error hsave
    exact ⟨if_pos hmentions, .refl store, hcovers⟩

theorem wp_importBlockProposals (store : Store) (pubKey : PubKey)
    {signedBlocks : List (Option SignedBlock)}
    (hblocks : ∀ sb ∈ signedBlocks.reduceOption, (slotFromString sb.slot).isOk)
    (hnull : (signedBlocks.dropWhile isSome).all isNone) :
    wp (importBlockProposals pubKey signedBlocks) (fun out last ↦ out = .ok () ∧ Grows store last ∧
        ∀ slot ∈ slotsOf signedBlocks, CoversSlot last pubKey slot) store := by
  induction signedBlocks generalizing store with
  | nil => exact ⟨rfl, .refl store, fun _ hslot ↦ absurd hslot not_mem_nil⟩
  | cons block signedBlocks ih =>
    cases block with
    | none =>
      -- The loop ends here, and only null blocks follow.
      have hrest : signedBlocks.reduceOption = [] := by
        rw [List.reduceOption, filterMap_eq_nil_iff]
        have hall : ∀ block ∈ none :: signedBlocks, block.isNone := all_eq_true.1 hnull
        exact fun block hblock ↦ isNone_iff_eq_none.1 (hall block (mem_cons_of_mem _ hblock))
      refine ⟨rfl, .refl store, fun slot hslot ↦ ?_⟩
      rw [slotsOf, reduceOption_cons_of_none, hrest] at hslot
      exact absurd hslot not_mem_nil
    | some sb =>
      obtain ⟨slot, hslot⟩ := exists_of_isOk (hblocks sb (by simp))
      have hcons : slotsOf (some sb :: signedBlocks) = slot :: slotsOf signedBlocks := by
        simp [slotsOf, hslot, Except.toOption]
      simp only [importBlockProposals, hslot, fault, Except.mapError, wrapf_ok, wp_bind,
        wp_ofExcept, whenOk_ok, wp_mapOutcome]
      apply (wp_saveSlot store pubKey slot).mono
      rintro out middle ⟨rfl, hgrows, hcovers⟩
      rw [wrapf_ok, whenOk_ok]
      apply (ih middle (fun sb hsb ↦ hblocks sb (by simp [hsb])) hnull).mono
      rintro out last ⟨rfl, hgrows', hcovers'⟩
      refine ⟨rfl, hgrows.trans hgrows', fun other hother ↦ ?_⟩
      rw [hcons] at hother
      rcases mem_cons.1 hother with rfl | hother
      · exact hcovers.grows hgrows'
      · exact hcovers' other hother

theorem mapM_attestationOf (hok : ∀ sa ∈ atts, (attestationOf sa).isOk) :
    atts.mapM attestationOf = .ok (attestationsOf atts) := by
  induction atts with
  | nil => rfl
  | cons sa atts ih =>
    obtain ⟨att, hatt⟩ := exists_of_isOk (hok sa mem_cons_self)
    have hcons : attestationsOf (sa :: atts) =
        att :: attestationsOf atts := by
      simp [attestationsOf, hatt, Except.toOption]
    rw [mapM_cons, hatt, ih fun sa hsa ↦ hok sa (mem_cons_of_mem _ hsa), hcons]
    rfl

/-- A list without null attestations is saved. -/
theorem exists_saveAttestationsForPubKey (store : Store) (pubKey : PubKey)
    (atts : List IndexedAttestation) :
    ∃ next, saveAttestationsForPubKey store pubKey (atts.map some) = .ok next := by
  have hmax : ∃ maxEpochs, maxSourceTargetEpoch (atts.map some) = .ok maxEpochs ∧ True := by
    apply exists_foldlM_eq_ok _ _ _ fun _ _ ↦ True
    · trivial
    · intro done att rest maxEpochs hatts _
      have hmem : att ∈ atts.map some := by simp [hatts]
      obtain ⟨new, -, rfl⟩ := mem_map.1 hmem
      exact ⟨_, rfl, trivial⟩
  obtain ⟨⟨source, target⟩, hmax, -⟩ := hmax
  unfold saveAttestationsForPubKey
  rw [hmax]
  split_ifs
  · exact ⟨store, rfl⟩
  · cases store.validatorSlashingProtection pubKey with
    | none => exact ⟨_, rfl⟩
    | some saved => exact ⟨_, rfl⟩

theorem wp_importAttestations (store : Store) (pubKey : PubKey)
    (hok : ∀ sa ∈ atts, (attestationOf sa).isOk) :
    wp (importAttestations pubKey atts) (fun out last ↦ out = .ok () ∧ Grows store last ∧
        ∀ att ∈ attestationsOf atts, CoversAttestation last pubKey att) store := by
  obtain ⟨next, hsave⟩ := exists_saveAttestationsForPubKey store pubKey (attestationsOf atts)
  simp only [importAttestations, mapM_attestationOf hok, wp_bind, wp_ofExcept,
    whenOk_ok, wp_mapOutcome, wp_saveUnless, hsave, wrapf_ok, true_and]
  obtain ⟨hgrows, hcovers⟩ := saveAttestationsForPubKey_ok hsave
  refine ⟨hgrows, fun att hatt ↦ ?_⟩
  obtain ⟨new, hnew, hcov⟩ := hcovers (some att) (mem_map_of_mem hatt)
  exact some.inj hnew ▸ hcov

section Decoded

variable [Hexutil]

/-- A null block is followed by null blocks only, and every number and key of the item can be read.
-/
structure WellFormed (item : ProtectionData) : Prop where
  pubKey : (itemPubKey item).isOk
  blocks : ∀ sb ∈ item.signedBlocks.reduceOption, (slotFromString sb.slot).isOk
  nullBlocksLast : (item.signedBlocks.dropWhile Option.isSome).all Option.isNone
  attestations : ∀ sa ∈ item.signedAttestations, (attestationOf sa).isOk

/-- The marks cover the blocks and the attestations of an item. -/
def CoversItem (store : Store) (item : ProtectionData) : Prop :=
  ∀ pubKey, itemPubKey item = .ok pubKey →
    (∀ slot ∈ slotsOf item.signedBlocks, CoversSlot store pubKey slot) ∧
      ∀ att ∈ attestationsOf item.signedAttestations, CoversAttestation store pubKey att

theorem CoversItem.grows (hcovers : CoversItem store item) (hgrows : Grows store next) :
    CoversItem next item :=
  fun pubKey hpubKey ↦ ⟨fun slot hslot ↦ ((hcovers pubKey hpubKey).1 slot hslot).grows hgrows,
    fun att hatt ↦ ((hcovers pubKey hpubKey).2 att hatt).grows hgrows⟩

theorem wp_importItem (store : Store) (hitem : WellFormed item) :
    wp (importItem item)
      (fun out last ↦ out = .ok () ∧ Grows store last ∧ CoversItem last item) store := by
  obtain ⟨pubKey, hpubKey⟩ := exists_of_isOk hitem.pubKey
  simp only [importItem, hpubKey, wp_bind, wp_ofExcept, whenOk_ok, wp_mapOutcome]
  apply (wp_importBlockProposals store pubKey hitem.blocks hitem.nullBlocksLast).mono
  rintro out middle ⟨rfl, hgrows, hslots⟩
  rw [wrapf_ok, whenOk_ok, wp_mapOutcome]
  apply (wp_importAttestations middle pubKey hitem.attestations).mono
  rintro out last ⟨rfl, hgrows', hatts⟩
  refine ⟨rfl, hgrows.trans hgrows', fun other hother ↦ ?_⟩
  obtain rfl : pubKey = other := Except.ok.inj (hpubKey.symm.trans hother)
  exact ⟨fun slot hslot ↦ (hslots slot hslot).grows hgrows', hatts⟩

theorem wp_importItems (store : Store) {data : List (Option ProtectionData)}
    (hdata : ∀ item ∈ data.reduceOption, WellFormed item) :
    wp (importItems data) (fun out last ↦ out = .ok () ∧ Grows store last ∧
        ∀ item ∈ data.reduceOption, CoversItem last item) store := by
  apply wp_forM fun done middle ↦ Grows store middle ∧ ∀ item ∈ done, CoversItem middle item
  · exact ⟨.refl store, fun _ hitem ↦ absurd hitem not_mem_nil⟩
  · rintro done item rest middle hitems ⟨hgrows, hcovers⟩
    apply (wp_importItem middle (hdata item (by simp [hitems]))).mono
    rintro out last ⟨rfl, hgrows', hitem⟩
    refine ⟨hgrows.trans hgrows', fun other hother ↦ ?_⟩
    rcases mem_append.1 hother with hdone | hlast
    · exact (hcovers other hdone).grows hgrows'
    · rw [mem_singleton.1 hlast]
      exact hitem
  · exact fun last hlast ↦ ⟨rfl, hlast⟩

inductive Request
  | saveAttestationForPubKey (pubKey : PubKey) (att : Option IndexedAttestation)
  | saveAttestationsForPubKey (pubKey : PubKey) (atts : List (Option IndexedAttestation))
  | saveProposalHistoryForSlot (pubKey : PubKey) (slot : Slot)
  | importStandardProtectionJSON (interchangeJSON : Option EIPSlashingProtectionFormat)
deriving DecidableEq

/-- The outcome of a save, which leaves the store as it was when it fails. -/
def settle (store : Store) : Except Error Store → Except Fault Unit × Store
  | .ok saved => (.ok (), saved)
  | .error err => (.error (.error err), store)

def Request.apply (store : Store) : Request → Except Fault Unit × Store
  | .saveAttestationForPubKey pubKey att =>
    settle store (Filesystem.saveAttestationForPubKey store pubKey att)
  | .saveAttestationsForPubKey pubKey atts =>
    settle store (Filesystem.saveAttestationsForPubKey store pubKey atts)
  | .saveProposalHistoryForSlot pubKey slot =>
    settle store (Filesystem.saveProposalHistoryForSlot store pubKey slot)
  | .importStandardProtectionJSON interchangeJSON =>
    (Filesystem.importStandardProtectionJSON interchangeJSON).runFrom store

/-- A request and how it ended. -/
structure Event where
  request : Request
  outcome : Except Fault Unit

def perform (store : Store) (request : Request) : Event × Store :=
  (⟨request, (request.apply store).1⟩, (request.apply store).2)

/-- The items that an import has for a key. -/
def itemsFor (pubKey : PubKey) (interchangeJSON : Option EIPSlashingProtectionFormat) :
    List ProtectionData :=
  ((interchangeJSON.bind (·.data)).getD []).reduceOption.filter fun item ↦
    (itemPubKey item).toOption = some pubKey

/-- The attestations that a request saves or imports for a key. -/
def Request.attestationsFor (pubKey : PubKey) : Request → List IndexedAttestation
  | .saveAttestationForPubKey key att => if key = pubKey then att.toList else []
  | .saveAttestationsForPubKey key atts => if key = pubKey then atts.reduceOption else []
  | .saveProposalHistoryForSlot _ _ => []
  | .importStandardProtectionJSON interchangeJSON =>
    (itemsFor pubKey interchangeJSON).flatMap fun item ↦ attestationsOf item.signedAttestations

/-- The slots that a request saves or imports for a key. -/
def Request.slotsFor (pubKey : PubKey) : Request → List Slot
  | .saveAttestationForPubKey _ _ => []
  | .saveAttestationsForPubKey _ _ => []
  | .saveProposalHistoryForSlot key slot => if key = pubKey then [slot] else []
  | .importStandardProtectionJSON interchangeJSON =>
    (itemsFor pubKey interchangeJSON).flatMap fun item ↦ slotsOf item.signedBlocks

/-- The requests of a run that did not fail. -/
def accepted (events : List Event) : List Request :=
  events.filterMap fun event ↦ if event.outcome.isOk then some event.request else none

/-- The items of an import are well formed, unless its metadata is refused. -/
def ImportKept (store : Store) (interchangeJSON : Option EIPSlashingProtectionFormat) : Prop :=
  ∀ json ∈ interchangeJSON, ∀ data ∈ json.data,
    (validateMetadata store.genesisValidatorsRoot json).isOk →
      ∀ item ∈ data.reduceOption, WellFormed item

def RequestKept (store : Store) : Request → Prop
  | .importStandardProtectionJSON interchangeJSON => ImportKept store interchangeJSON
  | _ => True

/-- The marks cover what a request saves or imports. -/
def Covers (store : Store) (request : Request) : Prop :=
  ∀ pubKey, (∀ att ∈ request.attestationsFor pubKey, CoversAttestation store pubKey att) ∧
    ∀ slot ∈ request.slotsFor pubKey, CoversSlot store pubKey slot

variable {request : Request}

theorem Covers.grows (hcovers : Covers store request) (hgrows : Grows store next) :
    Covers next request :=
  fun pubKey ↦ ⟨fun att hatt ↦ ((hcovers pubKey).1 att hatt).grows hgrows,
    fun slot hslot ↦ ((hcovers pubKey).2 slot hslot).grows hgrows⟩

/-- What every request does: marks are only raised, they cover the request if it succeeds, and they
are the same if it fails. -/
def Settles (store : Store) (request : Request) (outcome : Except Fault Unit)
    (last : Store) : Prop :=
  Grows store last ∧ (outcome.isOk → Covers last request) ∧
    (¬outcome.isOk → last.validatorSlashingProtection = store.validatorSlashingProtection)

theorem settles_error (store : Store) (request : Request) (fault : Fault) :
    Settles store request (.error fault) store :=
  ⟨.refl store, nofun, fun _ ↦ rfl⟩

theorem settles_settle {result : Except Error Store}
    (hok : ∀ saved, result = .ok saved → Grows store saved ∧ Covers saved request) :
    Settles store request (settle store result).1 (settle store result).2 := by
  cases result with
  | error err => exact settles_error store request _
  | ok saved =>
    obtain ⟨hgrows, hcovers⟩ := hok saved rfl
    exact ⟨hgrows, fun _ ↦ hcovers, fun hfail ↦ absurd rfl hfail⟩

theorem settles_import {interchangeJSON : Option EIPSlashingProtectionFormat}
    (hkept : ImportKept store interchangeJSON) :
    wp (importStandardProtectionJSON interchangeJSON)
      (Settles store (.importStandardProtectionJSON interchangeJSON)) store := by
  unfold importStandardProtectionJSON
  cases interchangeJSON with
  | none => exact settles_error store _ _
  | some json =>
    cases hdata : json.data with
    | none =>
      have hnil : ∀ pubKey, itemsFor pubKey (some json) = [] := by
        simp [itemsFor, hdata]
      simp only [hdata, wp_pure]
      refine ⟨.refl store, fun _ pubKey ↦ ?_, fun hfail ↦ absurd rfl hfail⟩
      simp [Request.attestationsFor, Request.slotsFor, hnil]
    | some data =>
      simp only [hdata, wp_bind, wp_get, whenOk_ok, wp_ofExcept]
      cases hgvr : validateMetadata store.genesisValidatorsRoot json with
      | error err => exact settles_error store _ _
      | ok gvr =>
        simp only [fault, Except.mapError, wrapf_ok, whenOk_ok]
        have hitems := hkept json rfl data hdata (by rw [hgvr]; rfl)
        apply (wp_importItems _ hitems).mono
        rintro out last ⟨rfl, hgrows, hcovers⟩
        refine ⟨hgrows, fun _ pubKey ↦ ?_, fun hfail ↦ absurd rfl hfail⟩
        have hitem : ∀ item ∈ itemsFor pubKey (some json),
            (∀ slot ∈ slotsOf item.signedBlocks, CoversSlot last pubKey slot) ∧
              ∀ att ∈ attestationsOf item.signedAttestations,
                CoversAttestation last pubKey att := by
          intro item hitem
          simp only [itemsFor, bind_some, hdata, getD_some, mem_filter, decide_eq_true_eq] at hitem
          exact hcovers item hitem.1 pubKey (eq_ok_of_toOption hitem.2)
        refine ⟨fun att hatt ↦ ?_, fun slot hslot ↦ ?_⟩
        · obtain ⟨item, hmem, hatt⟩ := mem_flatMap.1 hatt
          exact (hitem item hmem).2 att hatt
        · obtain ⟨item, hmem, hslot⟩ := mem_flatMap.1 hslot
          exact (hitem item hmem).1 slot hslot

theorem Request.settles (hkept : RequestKept store request) :
    Settles store request (request.apply store).1 (request.apply store).2 := by
  cases request with
  | saveAttestationForPubKey pubKey att =>
    apply settles_settle
    intro saved hsave
    obtain ⟨new, rfl, hgrows, hcovers, -⟩ := saveAttestationForPubKey_ok hsave
    refine ⟨hgrows, fun other ↦ ⟨fun att hatt ↦ ?_, fun _ hslot ↦ absurd hslot not_mem_nil⟩⟩
    simp only [Request.attestationsFor, toList_some, mem_ite_nil_right, mem_singleton] at hatt
    obtain ⟨rfl, rfl⟩ := hatt
    exact hcovers
  | saveAttestationsForPubKey pubKey atts =>
    apply settles_settle
    intro saved hsave
    obtain ⟨hgrows, hcovers⟩ := saveAttestationsForPubKey_ok hsave
    refine ⟨hgrows, fun other ↦ ⟨fun att hatt ↦ ?_, fun _ hslot ↦ absurd hslot not_mem_nil⟩⟩
    simp only [Request.attestationsFor, mem_ite_nil_right, reduceOption_mem_iff] at hatt
    obtain ⟨rfl, hmem⟩ := hatt
    grind
  | saveProposalHistoryForSlot pubKey slot =>
    apply settles_settle
    intro saved hsave
    obtain ⟨hgrows, hcovers, -⟩ := saveProposalHistoryForSlot_ok hsave
    refine ⟨hgrows, fun other ↦ ⟨fun _ hatt ↦ absurd hatt not_mem_nil, fun slot hslot ↦ ?_⟩⟩
    simp only [Request.slotsFor, mem_ite_nil_right, mem_singleton] at hslot
    obtain ⟨rfl, rfl⟩ := hslot
    exact hcovers
  | importStandardProtectionJSON json => exact settles_import hkept

/-- The marks cover every request of a run that did not fail. -/
theorem covers_accepted {start : Store} {events : List Event}
    (run : Run (CallStep perform RequestKept) start events store) :
    ∀ request ∈ accepted events, Covers store request := by
  apply run.history_invariant fun events store ↦ ∀ request ∈ accepted events, Covers store request
  · exact fun _ hrequest ↦ absurd hrequest not_mem_nil
  · rintro events store event next hcovers ⟨request, hkept, hperform⟩ other hother
    obtain ⟨rfl, rfl⟩ := Prod.mk.inj hperform
    obtain ⟨hgrows, hok, -⟩ := request.settles hkept
    simp only [accepted, filterMap_append, mem_append] at hother
    rcases hother with hother | hother
    · exact (hcovers other hother).grows hgrows
    · grind

/-- In every run whose imports are well formed: an attestation that is accepted is no double vote
and surrounds and is surrounded by none that was accepted or imported earlier, a block that is
accepted has a slot above every earlier one, and a request that fails changes no file. -/
theorem accepted_not_slashable {start : Store} {events : List Event}
    (run : Run (CallStep perform RequestKept) start events store) :
    (∀ pubKey att next, saveAttestationForPubKey store pubKey (some att) = .ok next →
      ∀ earlier ∈ (accepted events).flatMap (Request.attestationsFor pubKey),
        earlier.target ≠ att.target ∧ isSurround earlier att = false ∧
          isSurround att earlier = false) ∧
    (∀ pubKey slot next, saveProposalHistoryForSlot store pubKey slot = .ok next →
      ∀ earlier ∈ (accepted events).flatMap (Request.slotsFor pubKey), earlier < slot) ∧
    (∀ request, RequestKept store request → ¬(request.apply store).1.isOk →
      (request.apply store).2.validatorSlashingProtection = store.validatorSlashingProtection) := by
  have hcovers := covers_accepted run
  refine ⟨fun pubKey att next hsave earlier hearlier ↦ ?_,
    fun pubKey slot next hsave earlier hearlier ↦ ?_,
    fun request hkept ↦ (request.settles hkept).2.2⟩
  · obtain ⟨request, hrequest, hmem⟩ := mem_flatMap.1 hearlier
    obtain ⟨saved, target, hsaved, htgt, hsrc, hle⟩ :=
      (hcovers request hrequest pubKey).1 earlier hmem
    obtain ⟨new, hnew, -, -, habove⟩ := saveAttestationForPubKey_ok hsave
    obtain rfl := some.inj hnew
    obtain ⟨hsrc', htgt'⟩ := habove saved hsaved
    have hlt : earlier.target < att.target := hle.trans_lt (htgt' target htgt)
    have hle : earlier.source ≤ att.source := hsrc.trans hsrc'
    refine ⟨hlt.ne, ?_, ?_⟩
    · simp [isSurround, hlt.le]
    · simp [isSurround, hle]
  · obtain ⟨request, hrequest, hmem⟩ := mem_flatMap.1 hearlier
    obtain ⟨saved, latest, hsaved, hlatest, hle⟩ := (hcovers request hrequest pubKey).2 earlier hmem
    obtain ⟨-, -, habove⟩ := saveProposalHistoryForSlot_ok hsave
    grind

end Decoded

instance : Hexutil where
  decode str :=
    match Numeral.decodeHex (str.toList.drop 2) with
    | .ok bytes => .ok bytes
    | .error _ => .error (.errorf "invalid hex string" [])

/-- An interchange file of one key with the given signed blocks. -/
def blocksOf : Option EIPSlashingProtectionFormat :=
  some ⟨interchangeFormatVersion, hexString 32 1,
    some [some ⟨hexString 48 7, signedBlocks, [some ⟨"3", "4", ""⟩]⟩]⟩

/-- An import of blocks, and an attestation after it. -/
def importAndAttest : List Request :=
  [.importStandardProtectionJSON (blocksOf signedBlocks),
    .saveAttestationForPubKey 7 (some ⟨3, 5⟩)]

/-- The store after these requests. -/
def afterImport : Store :=
  (execute perform Store.empty (importAndAttest signedBlocks)).2

theorem accepted_not_slashable_afterImport :
    (accepted (execute perform Store.empty (importAndAttest [some ⟨"10", ""⟩])).1).flatMap
        (Request.slotsFor 7) = [10] ∧
      (saveProposalHistoryForSlot (afterImport [some ⟨"10", ""⟩]) 7 11).isOk ∧
      ∀ earlier ∈ (accepted (execute perform Store.empty
        (importAndAttest [some ⟨"10", ""⟩])).1).flatMap (Request.slotsFor 7), earlier < 11 := by
  have hkept : ImportKept Store.empty (blocksOf [some ⟨"10", ""⟩]) := by
    rintro json ⟨⟩ data ⟨⟩ - item hitem
    obtain rfl := mem_singleton.1 hitem
    exact ⟨by decide +kernel, by decide +kernel, by decide +kernel, by decide +kernel⟩
  have hrun := run_execute perform RequestKept Store.empty (importAndAttest [some ⟨"10", ""⟩])
    ⟨hkept, trivial, trivial⟩
  have hslot : (saveProposalHistoryForSlot (afterImport [some ⟨"10", ""⟩]) 7 11).isOk := by
    decide +kernel
  obtain ⟨next, hnext⟩ := exists_of_isOk hslot
  exact ⟨by decide +kernel, hslot, (accepted_not_slashable hrun).2.1 7 11 next hnext⟩

/-- After a null block the block at slot 10 is lost, and slot 5 is accepted.  An import that fails
on its second block keeps the first. -/
theorem importAndAttest_loses_block :
    10 ∈ (accepted (execute perform Store.empty
        (importAndAttest [none, some ⟨"10", ""⟩])).1).flatMap (Request.slotsFor 7) ∧
      (saveProposalHistoryForSlot (afterImport [none, some ⟨"10", ""⟩]) 7 5).isOk ∧
      ¬((Request.importStandardProtectionJSON (blocksOf [some ⟨"10", ""⟩, some ⟨"x", ""⟩])).apply
        Store.empty).1.isOk ∧
      ((Request.importStandardProtectionJSON (blocksOf [some ⟨"10", ""⟩, some ⟨"x", ""⟩])).apply
        Store.empty).2.validatorSlashingProtection 7 = some ⟨some 10, 0, none⟩ := by
  decide +kernel

end Prysm.Validator.Filesystem
