import MlsRs.ProposalFilter.Filtering

/-!
# The removal loops keep exactly what their verdicts keep

Every stage of the filter decides, entry by entry, whether a proposal of one
type stays, and deletes the others.  The source does this three ways: by
`retain_by_type`, by loops over `(0..len).rev()` that remove index `i` while
iterating, and by collecting `bad_indices` and removing them in reverse.  This
module shows that the three agree: each equals keeping the list by the mask of
the verdicts computed on the input list (`RetainedBy`), so the index
bookkeeping never deletes a wrong entry.

It also defines the two relations the invariants of the filter are stated
with: `Drops`, a list with only ignorable by-reference entries deleted, and
`Paired`, the Updates in step with `update_senders`.
-/

namespace MlsRs.ProposalFilter

variable {P : Payloads}

/-! ## Masks -/

/-- The positions, counted from `index`, that a mask flags `false`. -/
def falseIndicesFrom : Nat → List Bool → List Nat
  | _, [] => []
  | index, keep :: mask =>
      if keep then falseIndicesFrom (index + 1) mask else index :: falseIndicesFrom (index + 1) mask

theorem falseIndicesFrom_append (index : Nat) (mask : List Bool) (keep : Bool) :
    falseIndicesFrom index (mask ++ [keep]) =
      falseIndicesFrom index mask ++ if keep then [] else [index + mask.length] := by
  induction mask generalizing index with
  | nil => cases keep <;> rfl
  | cons flag mask ih => cases flag <;> simp [falseIndicesFrom, ih, Nat.add_assoc, Nat.add_comm 1]

section Lists

variable {α : Type}

/-- Removing the flagged positions from the last to the first is keeping by
the mask. -/
theorem foldl_eraseIdx_falseIndices (mask : List Bool) (entries : List α) :
    (falseIndicesFrom 0 mask).reverse.foldl (fun entries index => entries.eraseIdx index) entries =
      keepMask mask entries := by
  induction mask using List.reverseRecOn generalizing entries with
  | nil => cases entries <;> rfl
  | append_singleton mask keep ih =>
      cases keep
      · simp [falseIndicesFrom_append, ih, keepMask_eraseIdx]
      · simp [falseIndicesFrom_append, ih, keepMask_append_true]

theorem keepMask_of_forall_true {mask : List Bool} (allKept : ∀ keep ∈ mask, keep = true)
    (entries : List α) : keepMask mask entries = entries := by
  induction mask generalizing entries with
  | nil => rfl
  | cons keep mask ih =>
      cases entries with
      | nil => rfl
      | cons entry entries =>
          simp [keepMask, allKept keep (List.mem_cons_self _ _),
            ih (fun k member => allKept k (List.mem_cons_of_mem _ member))]

theorem forall_mem_keepMask {Q : α → Prop} {entries : List α} {mask : List Bool}
    (kept : List.Forall₂ (fun p keep => keep = true → Q p) entries mask) :
    ∀ p ∈ keepMask mask entries, Q p := by
  induction kept with
  | nil => simp
  | @cons p keep _ _ head _ ih =>
      cases keep
      · exact ih
      · simpa [keepMask, head rfl] using ih

theorem exists_of_forall₂_mem {β : Type} {R : α → β → Prop} {left : List α} {right : List β}
    (related : List.Forall₂ R left right) {a : α} (member : a ∈ left) : ∃ b, R a b := by
  induction related with
  | nil => cases member
  | cons head _ ih =>
      rcases List.mem_cons.mp member with rfl | member
      · exact ⟨_, head⟩
      · exact ih member

theorem forall₂_keepMask {β : Type} {R : α → β → Prop} {left : List α} {right : List β}
    (related : List.Forall₂ R left right) (mask : List Bool) :
    List.Forall₂ R (keepMask mask left) (keepMask mask right) := by
  induction related generalizing mask with
  | nil => simp
  | cons head tail ih =>
      cases mask with
      | nil => exact List.Forall₂.cons head tail
      | cons keep mask => cases keep <;> simp [keepMask, head, ih]

end Lists

namespace ProposalBundle

theorem modify_id (bundle : ProposalBundle P) (kind : ProposalKind) :
    bundle.modify kind (fun entries => entries) = bundle := by
  cases kind <;> rfl

theorem retain_nil (bundle : ProposalBundle P) (kind : ProposalKind) : bundle.retain kind [] = bundle :=
  modify_id bundle kind

theorem retain_of_forall_true (bundle : ProposalBundle P) (kind : ProposalKind) {mask : List Bool}
    (allKept : ∀ keep ∈ mask, keep = true) : bundle.retain kind mask = bundle := by
  calc bundle.retain kind mask = bundle.modify kind fun entries => entries := by
        rw [retain]
        congr 1
        funext α entries
        exact keepMask_of_forall_true allKept entries
    _ = bundle := modify_id bundle kind

/-- `bad_indices.into_iter().rev().for_each(remove)` keeps by the mask whose
`false` positions were collected. -/
theorem removeIndices_falseIndices (bundle : ProposalBundle P) (kind : ProposalKind) (mask : List Bool) :
    removeIndices bundle kind (falseIndicesFrom 0 mask) = bundle.retain kind mask := by
  rw [removeIndices, foldl_remove, retain]
  congr 1
  funext α entries
  exact foldl_eraseIdx_falseIndices mask entries

end ProposalBundle

/-! ## The three loops -/

/-- `after` is `before` with the entries of `kind` kept by the verdicts that
`verdict` gives on the entries of `before`, in order. -/
def RetainedBy (kind : ProposalKind) (verdict : ProposalInfo (kind.Payload P) → Except MlsError Bool)
    (before after : ProposalBundle P) : Prop :=
  ∃ mask, List.Forall₂ (fun p keep => verdict p = .ok keep) (before.get kind) mask ∧
    after = before.retain kind mask

theorem retainByType_eq_ok {bundle after : ProposalBundle P} {kind : ProposalKind}
    {verdict : ProposalInfo (kind.Payload P) → Except MlsError Bool} :
    bundle.retainByType kind verdict = .ok after ↔ RetainedBy kind verdict bundle after := by
  simp only [ProposalBundle.retainByType, bind_eq_ok, pure_eq_ok, mapM_eq_ok, RetainedBy]
  exact exists_congr fun mask => and_congr_right fun _ => eq_comm

/-- What a loop over `(0..n).rev()` erases, given its verdicts listed from index
`n - 1` down: index `i` goes, by `erase i`, when its verdict is `false`. -/
def eraseUnkept (erase : Nat → ProposalBundle P → ProposalBundle P) :
    Nat → List Bool → ProposalBundle P → ProposalBundle P
  | i + 1, keep :: verdicts, bundle =>
      eraseUnkept erase i verdicts (if keep then bundle else erase i bundle)
  | _, _, bundle => bundle

/-- A loop over `(0..n).rev()` whose steps do not read past their own index,
however it erases, computes every verdict on its input, last index first, then
erases by them. -/
theorem removeRevBy_eq (erase : Nat → ProposalBundle P → ProposalBundle P)
    (step : Nat → ProposalBundle P → Except MlsError Bool)
    (stepLocal : ∀ i j bundle, i < j → step i (erase j bundle) = step i bundle)
    (n : Nat) (bundle : ProposalBundle P) :
    removeRevBy erase step n bundle =
      ((List.range n).reverse.mapM (step · bundle)).map (eraseUnkept erase n · bundle) := by
  induction n generalizing bundle with
  | zero => rfl
  | succ n ih =>
      rw [removeRevBy, List.range_succ, List.reverse_append, List.reverse_singleton,
        List.singleton_append, List.mapM_cons]
      cases step n bundle with
      | error e => rfl
      | ok keep =>
          have agree : ∀ i ∈ (List.range n).reverse,
              step i (if keep then bundle else erase n bundle) = step i bundle := by
            intro i member
            split
            · rfl
            · exact stepLocal i n bundle (by simpa using member)
          simp only [ok_bind, ih, mapM_congr agree]
          cases (List.range n).reverse.mapM (step · bundle) <;> rfl

/-- With `remove::<T>`, the loop keeps by its verdicts. -/
theorem eraseUnkept_remove (kind : ProposalKind) :
    ∀ (verdicts : List Bool) (bundle : ProposalBundle P),
      eraseUnkept (fun i bundle => bundle.remove kind i) verdicts.length verdicts bundle =
        bundle.retain kind verdicts.reverse
  | [], bundle => (ProposalBundle.retain_nil bundle kind).symm
  | keep :: verdicts, bundle => by
      rw [List.length_cons, eraseUnkept, eraseUnkept_remove kind verdicts, List.reverse_cons]
      cases keep
      · rw [← List.length_reverse verdicts, if_neg Bool.false_ne_true,
          ProposalBundle.retain_remove]
      · rw [if_pos rfl, ProposalBundle.retain_append_true]

/-- The loops with `remove::<T>` compute every verdict on their input, last index
first, then keep by them. -/
theorem removeRev_eq (kind : ProposalKind) (step : Nat → ProposalBundle P → Except MlsError Bool)
    (stepLocal : ∀ i j bundle, i < j → step i (bundle.remove kind j) = step i bundle)
    (n : Nat) (bundle : ProposalBundle P) :
    removeRev kind step n bundle =
      ((List.range n).reverse.mapM (step · bundle)).map
        fun verdicts => bundle.retain kind verdicts.reverse := by
  rw [removeRev, removeRevBy_eq _ step stepLocal]
  cases computed : (List.range n).reverse.mapM (step · bundle) with
  | error e => rfl
  | ok verdicts =>
      have length : verdicts.length = n := by
        simpa using (mapM_eq_ok.mp computed).length_eq.symm
      rw [map_ok, map_ok, ← length, eraseUnkept_remove]

/-- Running a step on the indices of a list, last first, is running the verdict
on its entries, last first. -/
theorem mapM_range_reverse {α : Type} (step : Nat → Except MlsError Bool)
    (verdict : α → Except MlsError Bool) (entries : List α)
    (agree : ∀ i (inRange : i < entries.length), step i = verdict entries[i]) :
    (List.range entries.length).reverse.mapM step = entries.reverse.mapM verdict := by
  induction entries using List.reverseRecOn with
  | nil => rfl
  | append_singleton entries last ih =>
      have agreeFront : ∀ i (inRange : i < entries.length), step i = verdict entries[i] := by
        intro i inRange
        rw [agree i (by simp; omega), List.getElem_append_left inRange]
      rw [List.length_append, List.length_singleton, List.range_succ, List.reverse_append,
        List.reverse_singleton, List.singleton_append, List.mapM_cons, ih agreeFront,
        List.reverse_append, List.reverse_singleton, List.singleton_append, List.mapM_cons,
        agree entries.length (by simp), List.getElem_concat_length]
      rfl

/-- The loops of `filter_out_invalid_proposers`: every verdict on the input
list, last entry first, then keep by them. -/
theorem removeRev_entryVerdict (kind : ProposalKind)
    (verdict : ProposalInfo (kind.Payload P) → Except MlsError Bool) (bundle : ProposalBundle P) :
    removeRev kind (entryVerdict kind verdict) (bundle.get kind).length bundle =
      ((bundle.get kind).reverse.mapM verdict).map
        fun verdicts => bundle.retain kind verdicts.reverse := by
  have stepLocal : ∀ i j (bundle : ProposalBundle P), i < j →
      entryVerdict kind verdict i (bundle.remove kind j) = entryVerdict kind verdict i bundle := by
    intro i j bundle before
    simp only [entryVerdict, ProposalBundle.remove, ProposalBundle.get_modify_self,
      List.getElem?_eraseIdx_of_lt _ _ _ before]
  rw [removeRev_eq kind _ stepLocal, mapM_range_reverse _ verdict _ fun i inRange => by
    simp only [entryVerdict, List.getElem?_eq_getElem inRange]]

/-- Verdicts computed last entry first, then kept by, retain by those verdicts. -/
theorem reverse_mapM_retain_eq_ok {kind : ProposalKind}
    {verdict : ProposalInfo (kind.Payload P) → Except MlsError Bool} {bundle after : ProposalBundle P} :
    ((bundle.get kind).reverse.mapM verdict).map (fun verdicts => bundle.retain kind verdicts.reverse) =
        .ok after ↔ RetainedBy kind verdict bundle after := by
  rw [map_eq_ok, RetainedBy]
  constructor
  · rintro ⟨verdicts, computed, rfl⟩
    exact ⟨verdicts.reverse, mapM_eq_ok.mp (mapM_reverse_eq_ok.mp computed), rfl⟩
  · rintro ⟨mask, verdicts, rfl⟩
    refine ⟨mask.reverse, mapM_reverse_eq_ok.mpr ?_, by rw [List.reverse_reverse]⟩
    rw [List.reverse_reverse]
    exact mapM_eq_ok.mpr verdicts

theorem removeRev_entryVerdict_eq_ok {kind : ProposalKind}
    {verdict : ProposalInfo (kind.Payload P) → Except MlsError Bool} {bundle after : ProposalBundle P} :
    removeRev kind (entryVerdict kind verdict) (bundle.get kind).length bundle = .ok after ↔
      RetainedBy kind verdict bundle after := by
  rw [removeRev_entryVerdict, reverse_mapM_retain_eq_ok]

/-- The loops that collect `bad_indices` and remove them in reverse are
`retain_by_type`, errors included. -/
theorem collectBadIndices_eq {α : Type} (decide : α → Except MlsError Bool) (entries : List α) :
    collectBadIndices decide entries = (entries.mapM decide).map (falseIndicesFrom 0) := by
  suffices general : ∀ (start : Nat) (badIndices : List Nat),
      (entries.enumFrom start).foldlM (fun badIndices (i, p) => do
          let keep ← decide p
          pure (if keep then badIndices else badIndices ++ [i])) badIndices =
        (entries.mapM decide).map fun mask => badIndices ++ falseIndicesFrom start mask by
    simpa using general 0 []
  induction entries with
  | nil =>
      intro start badIndices
      simp only [List.enumFrom_nil, List.foldlM_nil, List.mapM_nil]
      simp [falseIndicesFrom]
  | cons entry entries ih =>
      intro start badIndices
      simp only [List.enumFrom_cons, List.foldlM_cons, List.mapM_cons]
      cases decide entry with
      | error e => rfl
      | ok keep =>
          simp only [ok_bind, ih]
          cases entries.mapM decide with
          | error e => rfl
          | ok mask => cases keep <;> simp [falseIndicesFrom]

theorem collect_removeIndices_eq (bundle : ProposalBundle P) (kind : ProposalKind)
    (verdict : ProposalInfo (kind.Payload P) → Except MlsError Bool) :
    (do
      let badIndices ← collectBadIndices verdict (bundle.get kind)
      pure (removeIndices bundle kind badIndices)) = bundle.retainByType kind verdict := by
  rw [collectBadIndices_eq, ProposalBundle.retainByType]
  cases (bundle.get kind).mapM verdict with
  | error e => rfl
  | ok mask => simp [ProposalBundle.removeIndices_falseIndices]

/-! ## Dropped entries -/

/-- `after` is `before` with some entries deleted, each one a proposal that
`strategy` may drop: a by-reference proposal under `IgnoreByRef`. -/
inductive Drops (strategy : FilterStrategy) {α : Type} :
    List (ProposalInfo α) → List (ProposalInfo α) → Prop
  | nil : Drops strategy [] []
  | keep (p : ProposalInfo α) {before after : List (ProposalInfo α)} :
      Drops strategy before after → Drops strategy (p :: before) (p :: after)
  | drop (p : ProposalInfo α) {before after : List (ProposalInfo α)} :
      strategy.ignore p.isByReference = true → Drops strategy before after →
      Drops strategy (p :: before) after

theorem FilterStrategy.isByReference_of_ignore {strategy : FilterStrategy} {byRef : Bool}
    (ignored : strategy.ignore byRef = true) : byRef = true := by
  cases strategy <;> simp_all [FilterStrategy.ignore]

namespace Drops

variable {strategy : FilterStrategy} {α : Type} {before middle after : List (ProposalInfo α)}

theorem refl (entries : List (ProposalInfo α)) : Drops strategy entries entries := by
  induction entries with
  | nil => exact .nil
  | cons p entries ih => exact .keep p ih

theorem trans (first : Drops strategy before middle) (second : Drops strategy middle after) :
    Drops strategy before after := by
  induction first generalizing after with
  | nil => exact second
  | keep p _ ih =>
      cases second with
      | keep _ rest => exact .keep p (ih rest)
      | drop _ ignored rest => exact .drop p ignored (ih rest)
  | drop p ignored _ ih => exact .drop p ignored (ih second)

theorem sublist (drops : Drops strategy before after) : after.Sublist before := by
  induction drops with
  | nil => exact .slnil
  | keep p _ ih => exact ih.cons₂ p
  | drop p _ _ ih => exact ih.cons p

/-- No by-value proposal is ever dropped. -/
theorem filter_isByValue (drops : Drops strategy before after) :
    after.filter ProposalInfo.isByValue = before.filter ProposalInfo.isByValue := by
  induction drops with
  | nil => rfl
  | keep p _ ih => simp [List.filter_cons, ih]
  | drop p ignored _ ih =>
      simp [List.filter_cons, ProposalInfo.isByValue,
        FilterStrategy.isByReference_of_ignore ignored, ih]

/-- A list of by-value proposals loses none. -/
theorem eq_of_forall_isByValue (drops : Drops strategy before after)
    (byValue : ∀ p ∈ before, p.isByValue = true) : after = before := by
  induction drops with
  | nil => rfl
  | keep p _ ih => rw [ih fun q member => byValue q (List.mem_cons_of_mem _ member)]
  | drop p ignored _ _ =>
      have := byValue p (List.mem_cons_self _ _)
      simp [ProposalInfo.isByValue, FilterStrategy.isByReference_of_ignore ignored] at this

theorem eq_of_ignoreNone (drops : Drops .ignoreNone before after) : after = before := by
  induction drops with
  | nil => rfl
  | keep p _ ih => rw [ih]
  | drop p ignored _ _ => cases ignored

end Drops

theorem drops_keepMask {strategy : FilterStrategy} {α : Type} {entries : List (ProposalInfo α)}
    {mask : List Bool}
    (flagged : List.Forall₂ (fun p keep => keep = false → strategy.ignore p.isByReference = true)
      entries mask) :
    Drops strategy entries (keepMask mask entries) := by
  induction flagged with
  | nil => exact .nil
  | @cons p keep _ _ head _ ih =>
      cases keep
      · exact .drop p (head rfl) ih
      · exact .keep p ih

theorem drops_nil {strategy : FilterStrategy} {α : Type} {entries : List (ProposalInfo α)}
    (droppable : ∀ p ∈ entries, strategy.ignore p.isByReference = true) : Drops strategy entries [] := by
  induction entries with
  | nil => exact .nil
  | cons p entries ih =>
      exact .drop p (droppable p (List.mem_cons_self _ _))
        (ih fun q member => droppable q (List.mem_cons_of_mem _ member))

/-- Every proposal list of `after` is that of `before` with droppable entries
deleted. -/
def Shrinks (strategy : FilterStrategy) (before after : ProposalBundle P) : Prop :=
  ∀ kind, Drops strategy (before.get kind) (after.get kind)

theorem Shrinks.refl (strategy : FilterStrategy) (bundle : ProposalBundle P) :
    Shrinks strategy bundle bundle :=
  fun _ => Drops.refl _

theorem Shrinks.forall_mem {strategy : FilterStrategy} {before after : ProposalBundle P}
    (shrinks : Shrinks strategy before after) (kind : ProposalKind)
    {Q : ProposalInfo (kind.Payload P) → Prop} (holds : ∀ p ∈ before.get kind, Q p) :
    ∀ p ∈ after.get kind, Q p :=
  fun p member => holds p ((shrinks kind).sublist.subset member)

theorem Shrinks.trans {strategy : FilterStrategy} {before middle after : ProposalBundle P}
    (first : Shrinks strategy before middle) (second : Shrinks strategy middle after) :
    Shrinks strategy before after :=
  fun kind => (first kind).trans (second kind)

/-- Keeping by a mask that flags `false` only droppable proposals shrinks the
bundle. -/
theorem Shrinks.retain {strategy : FilterStrategy} {bundle : ProposalBundle P} {kind : ProposalKind}
    {mask : List Bool}
    (flagged : List.Forall₂ (fun p keep => keep = false → strategy.ignore p.isByReference = true)
      (bundle.get kind) mask) :
    Shrinks strategy bundle (bundle.retain kind mask) := by
  intro other
  by_cases same : other = kind
  · subst same
    rw [ProposalBundle.retain, ProposalBundle.get_modify_self]
    exact drops_keepMask flagged
  · rw [ProposalBundle.retain, ProposalBundle.get_modify_of_ne _ _ same]
    exact Drops.refl _

theorem Shrinks.with_updateSenders (strategy : FilterStrategy) (bundle : ProposalBundle P)
    (senders : List LeafIndex) : Shrinks strategy bundle { bundle with updateSenders := senders } :=
  fun kind => by
    rw [ProposalBundle.with_updateSenders_get]
    exact Drops.refl _

/-- Clearing one list whose entries are all droppable shrinks the bundle. -/
theorem Shrinks.set_nil {strategy : FilterStrategy} {bundle : ProposalBundle P} (kind : ProposalKind)
    (droppable : ∀ p ∈ bundle.get kind, strategy.ignore p.isByReference = true) :
    Shrinks strategy bundle (bundle.set kind []) := by
  intro other
  by_cases same : other = kind
  · subst same
    rw [ProposalBundle.get_set_self]
    exact drops_nil droppable
  · rw [ProposalBundle.get_set_of_ne _ same]
    exact Drops.refl _

/-! ## Updates and their senders -/

/-- `update_senders` is in step with the Updates: as long, and entry `i` is the
leaf index of the member that sent Update `i`. -/
def Paired (proposals : ProposalBundle P) : Prop :=
  List.Forall₂ (fun p index => p.sender = .member index) proposals.updates proposals.updateSenders

theorem Paired.retain {bundle : ProposalBundle P} (paired : Paired bundle) (kind : ProposalKind)
    (mask : List Bool) : Paired (bundle.retain kind mask) := by
  unfold Paired
  rw [ProposalBundle.retain, ProposalBundle.updateSenders_modify]
  by_cases update : kind = .update
  · subst update
    exact forall₂_keepMask paired mask
  · have unchanged := ProposalBundle.get_modify_of_ne bundle (keepMask mask) (Ne.symm update)
    simp only [ProposalBundle.get_update] at unchanged
    rw [if_neg update, unchanged]
    exact paired

/-! ## Stages that retain by verdicts -/

namespace RetainedBy

variable {kind : ProposalKind} {verdict : ProposalInfo (kind.Payload P) → Except MlsError Bool}
  {before after : ProposalBundle P}

theorem shrinks {strategy : FilterStrategy} (retained : RetainedBy kind verdict before after)
    (dropIgnored : ∀ p, verdict p = .ok false → strategy.ignore p.isByReference = true) :
    Shrinks strategy before after := by
  obtain ⟨mask, verdicts, rfl⟩ := retained
  exact Shrinks.retain (verdicts.imp fun p keep computed (dropped : keep = false) =>
    dropIgnored p (dropped ▸ computed))

theorem forall_mem {Q : ProposalInfo (kind.Payload P) → Prop}
    (retained : RetainedBy kind verdict before after) (kept : ∀ p, verdict p = .ok true → Q p) :
    ∀ p ∈ after.get kind, Q p := by
  obtain ⟨mask, verdicts, rfl⟩ := retained
  have flagged : List.Forall₂ (fun p keep => keep = true → Q p) (before.get kind) mask :=
    verdicts.imp fun p keep computed (isKept : keep = true) => kept p (isKept ▸ computed)
  rw [ProposalBundle.retain, ProposalBundle.get_modify_self]
  exact forall_mem_keepMask flagged

theorem get_of_ne (retained : RetainedBy kind verdict before after) {other : ProposalKind}
    (different : other ≠ kind) : after.get other = before.get other := by
  obtain ⟨mask, -, rfl⟩ := retained
  exact ProposalBundle.get_modify_of_ne _ _ different

theorem paired (retained : RetainedBy kind verdict before after) (paired : Paired before) :
    Paired after := by
  obtain ⟨mask, -, rfl⟩ := retained
  exact paired.retain kind mask

/-- A stage that went through computed a verdict on every entry. -/
theorem exists_verdict (retained : RetainedBy kind verdict before after) {p : ProposalInfo (kind.Payload P)}
    (member : p ∈ before.get kind) : ∃ keep, verdict p = .ok keep :=
  let ⟨_, verdicts, _⟩ := retained
  exists_of_forall₂_mem verdicts member

/-- A stage whose every verdict keeps returns its input. -/
theorem self (allKept : ∀ p ∈ before.get kind, verdict p = .ok true) :
    RetainedBy kind verdict before before := by
  refine ⟨(before.get kind).map fun _ => true, ?_, ?_⟩
  · rw [List.forall₂_map_right_iff]
    exact List.forall₂_same.mpr allKept
  · exact (before.retain_of_forall_true kind (by simp)).symm

/-- A stage whose every verdict succeeds succeeds. -/
theorem exists_of_forall (decided : ∀ p ∈ before.get kind, ∃ keep, verdict p = .ok keep) :
    ∃ after, RetainedBy kind verdict before after := by
  obtain ⟨mask, computed⟩ := mapM_ok_of_forall decided
  exact ⟨_, mask, mapM_eq_ok.mp computed, rfl⟩

end RetainedBy

end MlsRs.ProposalFilter
