import Deckard.MemoryStorage
import Deckard.StorageQueries

/-!
# The two storages on one query

The messages of a memory storage as a collection of MongoDB keeps them, and the lists that
the filter, the order and the limit of a query admit on some documents. The memory storage
returns one of those that are admitted on the messages it does not pass over as expired.
-/
namespace Deckard

open Binary64 StableSort

namespace MongoStorage

variable {ι : Type} [LinearOrder ι] {internalIds : InternalIds ι} {opt : FindOptions}
  {rows ds : List (Document ι)} {mongoFilter : Document ι → Bool}

/-- The documents that the filter selects, in any order that follows the sort, cut at the
limit. -/
def Admits (internalIds : InternalIds ι) (opt : FindOptions) (rows ds : List (Document ι)) : Prop :=
  ∃ mongoFilter, getMongoMessage internalIds opt = .ok mongoFilter ∧
    ∃ ordered : List (Document ι), ordered.Perm (rows.filter mongoFilter) ∧
      (∀ sort, opt.sort = some sort → ordered.Pairwise (inOrder sort)) ∧
      ds = limited opt.limit ordered

/-- What `Find` returns is admitted. -/
theorem admits_find {docs : Documents ι} (h : find internalIds opt docs = .ok ds) :
    Admits internalIds opt docs.rows ds := by
  unfold find at h
  cases hfilter : getMongoMessage internalIds opt with
  | error e =>
    rw [hfilter] at h
    cases h
  | ok mongoFilter =>
    rw [hfilter] at h
    refine ⟨mongoFilter, hfilter, _, ?_, ?_, (Except.ok.inj h).symm⟩
    · cases opt.sort with
      | none => exact .refl _
      | some sort => exact List.perm_insertionSort _ _
    · intro sort hsort
      rw [hsort]
      exact List.pairwise_insertionSort _ _

theorem Admits.length_eq (h : Admits internalIds opt rows ds)
    (hfilter : getMongoMessage internalIds opt = .ok mongoFilter) :
    ds.length = (limited opt.limit (rows.filter mongoFilter)).length := by
  obtain ⟨mongoFilter', hfilter', ordered, hperm, -, rfl⟩ := h
  cases hfilter.symm.trans hfilter'
  unfold limited
  split_ifs
  · exact hperm.length_eq
  · rw [List.length_take, List.length_take, hperm.length_eq]

theorem Admits.pairwise (h : Admits internalIds opt rows ds) {sort : SortKeys}
    (hsort : opt.sort = some sort) : ds.Pairwise (inOrder sort) := by
  obtain ⟨-, -, ordered, -, hsorted, rfl⟩ := h
  unfold limited
  split_ifs
  · exact hsorted sort hsort
  · exact (hsorted sort hsort).sublist (List.take_sublist _ _)

theorem dateTime_mono {t t' : Time} (h : t ≤ t') : dateTime t ≤ dateTime t' :=
  Int.mul_le_mul_of_nonneg_right (Int.ediv_le_ediv (by decide) h) (by decide)

end MongoStorage

namespace MemoryStorage

open MongoStorage (Documents Admits dateTime getMongoMessage inDirection inOrder)

variable {ι : Type} [LinearOrder ι] {internalIds : InternalIds ι} {opt : FindOptions}

/-- A message as a document, whose dates have milliseconds. -/
def document (d : Stored ι) : Document ι where
  serial := d.serial
  key := d.value.key
  value :=
    { d.value with
      expiryDate := dateTime d.value.expiryDate
      lastUsage := d.value.lastUsage.map dateTime }

/-- The messages of a storage as a collection. -/
def collection (storage : MemoryStorage ι) : Documents ι where
  rows := storage.docs.rows.map document
  last := storage.docs.last
  sorted := by
    rw [List.pairwise_map]
    exact storage.docs.sorted
  le_last := by
    intro r hr
    obtain ⟨d, hd, rfl⟩ := List.mem_map.mp hr
    exact storage.docs.le_last d hd
  nodup := by
    rw [List.map_map]
    exact storage.nodup_pairs

/-! ## The filter -/

/-- No expiry date comes after that of the filter within its millisecond. -/
def Apart (opt : FindOptions) (message : Message) : Prop :=
  ∀ t, opt.internalFilter.bind InternalFilter.expiryDate = some t →
    dateTime message.expiryDate = dateTime t → message.expiryDate ≤ t

theorem dateTime_le_iff {t t' : Time} (h : dateTime t = dateTime t' → t ≤ t') :
    dateTime t ≤ dateTime t' ↔ t ≤ t' := by
  constructor
  · intro hle
    by_contra hlt
    have hge : dateTime t' ≤ dateTime t := MongoStorage.dateTime_mono (not_le.mp hlt).le
    exact hlt (h (le_antisymm hle hge))
  · exact MongoStorage.dateTime_mono

theorem bounds_eq {text : String} {i : Option ι}
    (h : MongoStorage.breakpoint internalIds text = .ok i) (holds : ι → Bool) :
    bounds internalIds text holds = .ok (i.all holds) := by
  unfold MongoStorage.breakpoint at h
  unfold bounds
  split_ifs at h ⊢ with htext
  · cases h
    rfl
  · cases hparse : internalIds.parse text with
    | none =>
      rw [hparse] at h
      cases h
    | some j =>
      rw [hparse] at h
      cases h
      rfl

theorem matchesInternalFilter_eq {filter : InternalFilter} {gt lte : Option ι}
    (hgt : MongoStorage.breakpoint internalIds filter.internalIdBreakpointGt = .ok gt)
    (hlte : MongoStorage.breakpoint internalIds filter.internalIdBreakpointLte = .ok lte)
    {d : Stored ι} (hdate : ∀ t, filter.expiryDate = some t →
      dateTime d.value.expiryDate = dateTime t → d.value.expiryDate ≤ t) :
    matchesInternalFilter internalIds filter d =
      .ok (MongoStorage.selects filter gt lte (document d)) := by
  have hexpiry : (filter.expiryDate.all fun t => decide (d.value.expiryDate ≤ t)) =
      filter.expiryDate.all fun t => decide (dateTime d.value.expiryDate ≤ dateTime t) := by
    cases hfilter : filter.expiryDate with
    | none => rfl
    | some t => exact decide_eq_decide.mpr (dateTime_le_iff (hdate t hfilter)).symm
  have hids : (filter.ids.any fun ids => !ids.isEmpty && !ids.contains d.value.id) =
      !(filter.ids.all fun ids => ids.isEmpty || ids.contains d.value.id) := by
    cases filter.ids with
    | none => rfl
    | some ids => simp
  -- the checks after those of the queue, each of which returns at the first failure
  have hchecks : ∀ ids above upTo expiry : Bool,
      (if (!ids) = true then (.ok false : Except StorageError Bool)
        else if above = false then .ok false
        else if upTo = false then .ok false
        else .ok expiry) = .ok (ids && above && upTo && expiry) := by
    intro ids above upTo expiry
    cases ids <;> cases above <;> cases upTo <;> rfl
  rw [matchesInternalFilter, MongoStorage.selects_eq]
  rw [bounds_eq hgt, bounds_eq hlte, hexpiry, hids]
  by_cases hqueue : filter.queue ≠ "" ∧ d.value.queue ≠ filter.queue
  · simp [hqueue, document, Message.key]
  · by_cases hname : filter.queuePrefix ≠ "" ∧ d.value.queuePrefix ≠ filter.queuePrefix
    · simp [hqueue, hname, document]
    · have hq : ((filter.queue == "" || (document d).key.1 == filter.queue)) = true := by
        simpa [document, Message.key, or_iff_not_imp_left] using hqueue
      have hp : (filter.queuePrefix == "" ||
          (document d).value.queuePrefix == filter.queuePrefix) = true := by
        simpa [document, or_iff_not_imp_left] using hname
      rw [if_neg hqueue, if_neg hname, hq, hp, Bool.and_true, Bool.and_true]
      exact hchecks _ _ _ _

theorem messageMatchesFilter_eq {mongoFilter : Document ι → Bool}
    (hfilter : getMongoMessage internalIds opt = .ok mongoFilter) {d : Stored ι}
    (hdate : Apart opt d.value) :
    messageMatchesFilter internalIds opt d = .ok (mongoFilter (document d)) := by
  unfold getMongoMessage at hfilter
  unfold messageMatchesFilter
  cases hopt : opt.internalFilter with
  | none =>
    rw [hopt] at hfilter
    cases hfilter
    rfl
  | some filter =>
    rw [hopt] at hfilter
    cases hgt : MongoStorage.breakpoint internalIds filter.internalIdBreakpointGt with
    | error e =>
      simp only [hgt] at hfilter
      cases hfilter
    | ok gt =>
      cases hlte : MongoStorage.breakpoint internalIds filter.internalIdBreakpointLte with
      | error e =>
        simp only [hgt, hlte] at hfilter
        cases hfilter
      | ok lte =>
        simp only [hgt, hlte] at hfilter
        cases hfilter
        refine matchesInternalFilter_eq hgt hlte fun t ht => hdate t ?_
        rw [hopt]
        exact ht

theorem matching_eq {mongoFilter : Document ι → Bool}
    (hfilter : getMongoMessage internalIds opt = .ok mongoFilter) {visit : List (Stored ι)}
    (hdates : ∀ d ∈ visit, Apart opt d.value) :
    matching internalIds opt visit = .ok (visit.filter fun d => mongoFilter (document d)) := by
  induction visit with
  | nil => rfl
  | cons d visit ih =>
    rw [matching, messageMatchesFilter_eq hfilter (hdates d List.mem_cons_self),
      ih fun d' hd' => hdates d' (List.mem_cons_of_mem _ hd'), List.filter_cons]
    rfl

/-! ## The order -/

omit [LinearOrder ι] in
theorem strictWeak_before {α : Type} [LinearOrder α] (direction : Direction)
    (f : Stored ι → α) (l : List (Stored ι)) :
    StrictWeak (fun a b => before direction (f a) (f b)) l := by
  cases direction with
  | ascending =>
    constructor
    · intro a _ b _ hab
      exact decide_eq_false (of_decide_eq_true hab).not_gt
    · intro a _ b _ c _ hab hbc
      have hba := not_lt.mp (of_decide_eq_false hab)
      exact decide_eq_false ((not_lt.mp (of_decide_eq_false hbc)).trans hba).not_gt
  | descending =>
    constructor
    · intro a _ b _ hab
      exact decide_eq_false (of_decide_eq_true hab).not_gt
    · intro a _ b _ c _ hab hbc
      have hba := not_lt.mp (of_decide_eq_false hab)
      exact decide_eq_false (hba.trans (not_lt.mp (of_decide_eq_false hbc))).not_gt

theorem before_eq_false {direction : Direction} {t t' : Time} :
    before direction t t' = false ∧ before direction t' t = false ↔ t = t' := by
  cases direction with
  | ascending =>
    simp only [before, decide_eq_false_iff_not, not_lt]
    rw [le_antisymm_iff, and_comm]
  | descending =>
    simp only [before, decide_eq_false_iff_not, not_lt]
    rw [le_antisymm_iff]

theorem strictWeak_expiryDate (direction : Direction) {keys : SortKeys} {l : List (Stored ι)}
    (hkeys : StrictWeak (less keys) l) :
    StrictWeak (less ((.expiryDate, direction) :: keys)) l := by
  have hzero : StrictWeak (fun a b : Stored ι =>
      if a.value.expiryDate = zeroTime ∧ b.value.expiryDate = zeroTime then less keys a b
      else before direction a.value.expiryDate b.value.expiryDate) l := by
    apply (strictWeak_before direction (fun d : Stored ι => d.value.expiryDate) l).within hkeys
    · intro a b ha hb
      exact (before_eq_false.mpr (ha.trans hb.symm)).1
    · intro a b ha hab hba
      exact (before_eq_false.mp ⟨hab, hba⟩).symm.trans ha
  apply hzero.congr
  intro a _ b _
  simp only [less, ne_eq, ← not_and_or, ite_not]

theorem strictWeak_score (direction : Direction) (keys : SortKeys) {l : List (Stored ι)}
    (hl : ∀ d ∈ l, d.value.score ≠ .nan) : StrictWeak (less ((.score, direction) :: keys)) l := by
  let number : Stored ι → Number := fun d =>
    match d.value.score with
    | .num x => x
    | .nan => .posInf
  have hnumber : ∀ d ∈ l, d.value.score = .num (number d) := by
    intro d hd
    have hd' := hl d hd
    simp only [number]
    cases hscore : d.value.score with
    | nan => exact absurd hscore hd'
    | num x => rfl
  apply (strictWeak_before direction number l).congr
  intro a ha b hb
  simp only [less, hnumber a ha, hnumber b hb]
  cases direction <;> rfl

/-- Without NaN the comparison is a strict weak order. -/
theorem strictWeak_less {sort : SortKeys} {l : List (Stored ι)}
    (hscores : ∀ key ∈ sort, key.1 = .score → ∀ d ∈ l, d.value.score ≠ .nan) :
    StrictWeak (less sort) l := by
  induction sort with
  | nil => exact strictWeak_before .ascending Row.serial l
  | cons key keys ih =>
    obtain ⟨hfirst, hkeys⟩ := List.forall_mem_cons.mp hscores
    obtain ⟨field, direction⟩ := key
    cases field with
    | score => exact strictWeak_score direction keys (hfirst rfl)
    | internalId => exact strictWeak_before direction Row.serial l
    | expiryDate => exact strictWeak_expiryDate direction (ih hkeys)
    | lastUsage => exact ih hkeys

/-- The comparison does not contradict the order of the dates. -/
theorem before_expiryDate {direction : Direction} {keys : SortKeys} {a b : Stored ι}
    (h : less ((.expiryDate, direction) :: keys) b a = false) :
    before direction b.value.expiryDate a.value.expiryDate = false := by
  rw [less] at h
  split_ifs at h with hzero
  · exact h
  · rw [not_or, not_not, not_not] at hzero
    exact (before_eq_false.mpr (hzero.1.trans hzero.2.symm)).1

theorem inDirection_expiryDate {direction : Direction} {a b : Stored ι}
    (h : less [(.expiryDate, direction)] b a = false) :
    inDirection (.expiryDate, direction) (document a) (document b) := by
  have hbefore := before_expiryDate h
  cases direction with
  | ascending => exact MongoStorage.dateTime_mono (not_lt.mp (of_decide_eq_false hbefore))
  | descending => exact MongoStorage.dateTime_mono (not_lt.mp (of_decide_eq_false hbefore))

theorem inDirection_score {direction : Direction} {a b : Stored ι} (ha : a.value.score ≠ .nan)
    (hb : b.value.score ≠ .nan) (h : less [(.score, direction)] b a = false) :
    inDirection (.score, direction) (document a) (document b) := by
  have hscore : before direction b.value.score a.value.score = false := h
  cases direction with
  | ascending => exact (MongoStorage.noneFirst_number ha hb).mpr (of_decide_eq_false hscore)
  | descending => exact (MongoStorage.noneFirst_number hb ha).mpr (of_decide_eq_false hscore)

/-- An internal id comes before or after any other, and leaves nothing to the keys that follow. -/
theorem inOrder_internalId {direction : Direction} (keys : SortKeys) {a b : Stored ι}
    (hne : a.serial ≠ b.serial) (h : less ((.internalId, direction) :: keys) b a = false) :
    inOrder ((.internalId, direction) :: keys) (document a) (document b) := by
  have hbefore : before direction b.serial a.serial = false := h
  cases direction with
  | ascending =>
    have hle : a.serial ≤ b.serial := not_lt.mp (of_decide_eq_false hbefore)
    exact ⟨hle, fun hge => absurd (le_antisymm hle hge) hne⟩
  | descending =>
    have hle : b.serial ≤ a.serial := not_lt.mp (of_decide_eq_false hbefore)
    exact ⟨hle, fun hge => absurd (le_antisymm hge hle) hne⟩

/-- Keys by which the comparison follows the order of MongoDB on some messages. Further keys are
allowed after the internal id, with which no two messages tie. -/
inductive Follows (messages : List (Stored ι)) : SortKeys → Prop
  | unordered : Follows messages []
  | expiryDate (direction : Direction) : Follows messages [(.expiryDate, direction)]
  | score (direction : Direction) (h : ∀ d ∈ messages, d.value.score ≠ .nan) :
      Follows messages [(.score, direction)]
  | internalId (direction : Direction) (keys : SortKeys) :
      Follows messages ((.internalId, direction) :: keys)

omit [LinearOrder ι] in
theorem Follows.mono {messages messages' : List (Stored ι)} {sort : SortKeys}
    (h : Follows messages sort) (hsub : messages' ⊆ messages) : Follows messages' sort := by
  cases h with
  | unordered => exact .unordered
  | expiryDate direction => exact .expiryDate direction
  | score direction hscores => exact .score direction fun d hd => hscores d (hsub hd)
  | internalId direction keys => exact .internalId direction keys

theorem Follows.strictWeak {messages : List (Stored ι)} {sort : SortKeys}
    (h : Follows messages sort) : StrictWeak (less sort) messages := by
  cases h with
  | unordered => exact strictWeak_less (by simp)
  | expiryDate direction => exact strictWeak_less (by simp)
  | score direction hscores => exact strictWeak_less (by simpa using hscores)
  | internalId direction keys => exact strictWeak_before direction Row.serial messages

theorem Follows.inOrder {messages : List (Stored ι)} {sort : SortKeys} (h : Follows messages sort)
    {a b : Stored ι} (ha : a ∈ messages) (hb : b ∈ messages) (hne : a.serial ≠ b.serial)
    (hless : less sort b a = false) : MongoStorage.inOrder sort (document a) (document b) := by
  cases h with
  | unordered => trivial
  | expiryDate direction =>
    exact MongoStorage.inOrder_singleton.mpr (inDirection_expiryDate hless)
  | score direction hscores =>
    exact MongoStorage.inOrder_singleton.mpr
      (inDirection_score (hscores a ha) (hscores b hb) hless)
  | internalId direction keys => exact inOrder_internalId keys hne hless

theorem pairwise_sorted {sort : SortKeys} {found : List (Stored ι)} (hfollows : Follows found sort)
    (hserials : (found.map Row.serial).Nodup) :
    ((stableSort (less sort) found).map document).Pairwise (inOrder sort) := by
  have hperm := perm_stableSort (less sort) found
  have hne : (stableSort (less sort) found).Pairwise fun a b => a.serial ≠ b.serial :=
    List.pairwise_map.mp ((hperm.map _).nodup_iff.mpr hserials)
  rw [List.pairwise_map]
  apply ((pairwise_stableSort hfollows.strictWeak).and hne).imp_of_mem
  intro a b ha hb h
  exact hfollows.inOrder (hperm.subset ha) (hperm.subset hb) h.2 h.1

omit [LinearOrder ι] in
theorem limited_eq (limit : ℤ) (ds : List (Stored ι)) :
    (limited limit ds).map document = MongoStorage.limited (max limit 0) (ds.map document) := by
  unfold limited MongoStorage.limited
  by_cases hzero : max limit 0 = 0
  · rw [if_pos hzero, if_neg (by omega)]
  · rw [if_neg hzero]
    by_cases hlength : limit < ds.length
    · rw [if_pos ⟨by omega, hlength⟩, List.map_take]
      congr 1
      omega
    · rw [if_neg fun h => hlength h.2, List.take_of_length_le]
      rw [List.length_map]
      omega

theorem find_eq {visit : List (Stored ι)} {clock : Stored ι → Time × Time}
    {mongoFilter : Document ι → Bool}
    (hfilter : getMongoMessage internalIds opt = .ok mongoFilter)
    (hdates : ∀ d ∈ visit.filter (fun d => !hides opt (clock d) d.value), Apart opt d.value) :
    let found := (visit.filter fun d => !hides opt (clock d) d.value).filter
      fun d => mongoFilter (document d)
    find internalIds opt clock visit =
      .ok (limited opt.limit <| match opt.sort with
        | none => found
        | some sort => stableSort (less sort) found) := by
  rw [find, matching_eq hfilter hdates]
  rfl

/-! ## Results -/

/-- `Count` counts the documents that MongoDB selects. `Find` returns a list that MongoDB
might return if it held only the messages that have not expired, all of them when the filter
has an expiry date, and took a negative limit for none. -/
theorem query_answered_as_mongo (internalIds : InternalIds ι) (storage : MemoryStorage ι)
    {visit : List (Stored ι)} (hvisit : visit.Perm storage.docs.rows) (opt : FindOptions)
    (clock : Stored ι → Time × Time) {mongoFilter : Document ι → Bool}
    (hfilter : getMongoMessage internalIds opt = .ok mongoFilter)
    (hdates : ∀ d ∈ storage.docs.rows, Apart opt d.value) :
    count internalIds opt visit = MongoStorage.count internalIds opt storage.collection ∧
      ((∀ sort, opt.sort = some sort →
          Follows (storage.docs.rows.filter fun d => mongoFilter (document d)) sort) →
        ∃ found, find internalIds opt clock visit = .ok found ∧
          Admits internalIds { opt with limit := max opt.limit 0 }
            ((storage.docs.rows.filter fun d => !hides opt (clock d) d.value).map document)
            (found.map document)) := by
  have hdates' : ∀ d ∈ visit, Apart opt d.value := fun d hd => hdates d (hvisit.subset hd)
  constructor
  · rw [count, matching_eq hfilter hdates', MongoStorage.count, hfilter]
    change Except.ok (List.length _) = Except.ok (List.length (List.filter _ (List.map _ _)))
    rw [List.filter_map, List.length_map, (hvisit.filter _).length_eq]
    rfl
  · intro hsort
    have hshown : ∀ d ∈ visit.filter (fun d => !hides opt (clock d) d.value), Apart opt d.value :=
      fun d hd => hdates' d (List.mem_of_mem_filter hd)
    refine ⟨_, find_eq hfilter hshown, mongoFilter, hfilter, _, ?_, ?_, limited_eq opt.limit _⟩
    · rw [List.filter_map]
      apply List.Perm.map
      refine List.Perm.trans ?_ ((hvisit.filter _).filter _)
      cases opt.sort with
      | none => exact .refl _
      | some sort => exact perm_stableSort _ _
    · intro sort hsort'
      have hopt : opt.sort = some sort := hsort'
      rw [hopt]
      have hserials : (visit.map Row.serial).Nodup :=
        (hvisit.map _).nodup_iff.mpr (List.pairwise_map.mpr (storage.docs.sorted.imp ne_of_lt))
      refine pairwise_sorted ((hsort sort hopt).mono fun d hd => ?_)
        (hserials.sublist ((List.filter_sublist.trans List.filter_sublist).map _))
      obtain ⟨hshown, hselected⟩ := List.mem_filter.mp hd
      exact List.mem_filter.mpr ⟨hvisit.subset (List.mem_of_mem_filter hshown), hselected⟩

/-- A storage to which some messages are added, one each second. -/
def added (messages : List Message) : MemoryStorage ℕ :=
  (insert InternalIds.counter (fun i => (i + 1) * 1000000000) messages (newMemoryStorage 0)).2

/-- Two messages that expire after an hour. -/
def twoMessages : MemoryStorage ℕ :=
  added [{ id := "a", queue := "q", expiryDate := 3600000000000 },
    { id := "b", queue := "q", expiryDate := 3600000000000 }]

/-- The query by which messages beyond the limit of a queue are chosen. -/
def exceeding (queue : String) (diff : ℤ) : FindOptions where
  sort := some [(.expiryDate, .ascending)]
  limit := diff
  internalFilter := some { queue := queue }

theorem query_answered_as_mongo_exceeding :
    count InternalIds.counter (exceeding "q" 1) twoMessages.docs.rows =
        MongoStorage.count InternalIds.counter (exceeding "q" 1) twoMessages.collection ∧
      ∃ found, find InternalIds.counter (exceeding "q" 1) (fun _ => (4000000000, 4000000000))
          twoMessages.docs.rows = .ok found ∧
        Admits InternalIds.counter (exceeding "q" 1)
          ((twoMessages.docs.rows.filter fun d =>
            !hides (exceeding "q" 1) (4000000000, 4000000000) d.value).map document)
          (found.map document) := by
  obtain ⟨hcount, hfind⟩ := query_answered_as_mongo InternalIds.counter twoMessages (.refl _)
    (exceeding "q" 1) (fun _ => (4000000000, 4000000000)) rfl fun d _ t ht => by cases ht
  refine ⟨hcount, hfind ?_⟩
  intro sort hsort
  cases hsort
  exact .expiryDate .ascending

/-- The memory storage returns a list that MongoDB would not return for the same messages. -/
def Deviates (storage : MemoryStorage ℕ) (opt : FindOptions) (now : Time) : Prop :=
  ∃ found, find InternalIds.counter opt (fun _ => (now, now)) storage.docs.rows = .ok found ∧
    ¬ Admits InternalIds.counter opt storage.collection.rows (found.map document)

theorem deviates_of {storage : MemoryStorage ℕ} {opt : FindOptions} {now : Time}
    (p : List (Document ℕ) → Bool)
    (hfind : (find InternalIds.counter opt (fun _ => (now, now)) storage.docs.rows).toOption.any
      (fun found => p (found.map document)) = true)
    (hp : ∀ ds, Admits InternalIds.counter opt storage.collection.rows ds → p ds = false) :
    Deviates storage opt now := by
  obtain ⟨found, hfound, hp'⟩ := (Option.any_eq_true _ _).mp hfind
  refine ⟨found, ?_, fun hadmits => ?_⟩
  · cases hrun : find InternalIds.counter opt (fun _ => (now, now)) storage.docs.rows with
    | error e =>
      rw [hrun] at hfound
      cases hfound
    | ok found' =>
      rw [hrun] at hfound
      cases hfound
      rfl
  · rw [hp _ hadmits] at hp'
    cases hp'

/-- An expired message is passed over; a negative limit is none; an expiry date is compared
below the millisecond; a bound that is no id is an error only if a message meets it; NaN comes
where the comparison leaves it; a second key is not looked at; and neither is `last_usage`. -/
theorem find_deviates :
    Deviates twoMessages {} 3600000000000 ∧
    Deviates twoMessages { limit := -1 } 4000000000 ∧
    Deviates (added [{ id := "a", queue := "q", expiryDate := 1700000 }])
      { internalFilter := some { expiryDate := some 1500000 } } 4000000000 ∧
    Deviates (added []) { internalFilter := some { internalIdBreakpointGt := "x" } } 4000000000 ∧
    Deviates (added [{ id := "a", queue := "q", expiryDate := 3600000000000 },
        { id := "b", queue := "q", expiryDate := 3600000000000, score := .nan }])
      { sort := some [(.score, .ascending)] } 4000000000 ∧
    Deviates twoMessages { sort := some [(.expiryDate, .ascending), (.internalId, .descending)] }
      4000000000 ∧
    Deviates (ack { id := "a", queue := "q", lastUsage := some 3000000000 } twoMessages).2
      { sort := some [(.lastUsage, .ascending)] } 4000000000 := by
  have hparse : InternalIds.counter.parse "x" = none := by decide +kernel
  refine ⟨?_, ?_, ?_, ?_, ?_, ?_, ?_⟩
  · refine deviates_of (fun ds => ds.length == 0) (by decide +kernel) fun ds h => ?_
    rw [h.length_eq rfl]
    decide +kernel
  · refine deviates_of (fun ds => ds.length == 2) (by decide +kernel) fun ds h => ?_
    rw [h.length_eq rfl]
    decide +kernel
  · refine deviates_of (fun ds => ds.length == 0) (by decide +kernel) fun ds h => ?_
    rw [h.length_eq rfl]
    decide +kernel
  · refine deviates_of (fun _ => true) (by decide +kernel) fun ds h => ?_
    obtain ⟨mongoFilter, hfilter, -⟩ := h
    simp only [getMongoMessage, MongoStorage.breakpoint, hparse] at hfilter
    cases hfilter
  · refine deviates_of (fun ds => !decide (ds.Pairwise (inOrder [(.score, .ascending)])))
      (by decide +kernel) fun ds h => ?_
    rw [decide_eq_true (h.pairwise rfl), Bool.not_true]
  · refine deviates_of (fun ds => !decide (ds.Pairwise (inOrder [(.expiryDate, .ascending),
      (.internalId, .descending)]))) (by decide +kernel) fun ds h => ?_
    rw [decide_eq_true (h.pairwise rfl), Bool.not_true]
  · refine deviates_of (fun ds => !decide (ds.Pairwise (inOrder [(.lastUsage, .ascending)])))
      (by decide +kernel) fun ds h => ?_
    rw [decide_eq_true (h.pairwise rfl), Bool.not_true]

end MemoryStorage

end Deckard
