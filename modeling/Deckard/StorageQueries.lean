import Deckard.Storage

/-!
# Queries of the storage

The three queries that the queue and the recovery make: some ids of a queue by score, a
page of internal ids in a range, and the last internal id.
-/
namespace Deckard.MongoStorage

open Binary64 Cache

variable {ι : Type} [LinearOrder ι]

theorem noneFirst_total {α : Type} [LinearOrder α] (a b : Option α) :
    NoneFirst a b ∨ NoneFirst b a := by
  cases a with
  | none => exact .inl trivial
  | some a =>
    cases b with
    | none => exact .inr trivial
    | some b => exact le_total a b

theorem noneFirst_trans {α : Type} [LinearOrder α] {a b c : Option α} (h : NoneFirst a b)
    (h' : NoneFirst b c) : NoneFirst a c := by
  cases a with
  | none => trivial
  | some a =>
    cases b with
    | none => exact h.elim
    | some b =>
      cases c with
      | none => exact h'.elim
      | some c => exact le_trans h h'

/-- Numbers are sorted by the comparison of floats. -/
theorem noneFirst_number {x y : Float64} (hx : x ≠ .nan) (hy : y ≠ .nan) :
    NoneFirst (number x) (number y) ↔ ¬ y < x := by
  cases x with
  | nan => exact absurd rfl hx
  | num x =>
    cases y with
    | nan => exact absurd rfl hy
    | num y => exact not_lt.symm

theorem ascending_total (field : SortField) (a b : Document ι) :
    ascending field a b ∨ ascending field b a := by
  cases field with
  | score => exact noneFirst_total _ _
  | internalId => exact le_total _ _
  | expiryDate => exact le_total _ _
  | lastUsage => exact noneFirst_total _ _

theorem ascending_trans {field : SortField} {a b c : Document ι} (h : ascending field a b)
    (h' : ascending field b c) : ascending field a c := by
  cases field with
  | score => exact noneFirst_trans h h'
  | internalId => exact le_trans h h'
  | expiryDate => exact le_trans h h'
  | lastUsage => exact noneFirst_trans h h'

theorem inDirection_total (key : SortField × Direction) (a b : Document ι) :
    inDirection key a b ∨ inDirection key b a := by
  obtain ⟨field, direction⟩ := key
  cases direction with
  | ascending => exact ascending_total field a b
  | descending => exact ascending_total field b a

theorem inDirection_trans {key : SortField × Direction} {a b c : Document ι}
    (h : inDirection key a b) (h' : inDirection key b c) : inDirection key a c := by
  obtain ⟨field, direction⟩ := key
  cases direction with
  | ascending => exact ascending_trans h h'
  | descending => exact ascending_trans h' h

@[simp] theorem inOrder_singleton {key : SortField × Direction} {a b : Document ι} :
    inOrder [key] a b ↔ inDirection key a b := by
  simp [inOrder]

theorem inOrder_total (sort : SortKeys) (a b : Document ι) :
    inOrder sort a b ∨ inOrder sort b a := by
  induction sort with
  | nil => exact .inl trivial
  | cons key keys ih =>
    by_cases hab : inDirection key a b
    · by_cases hba : inDirection key b a
      · exact ih.imp (fun h => ⟨hab, fun _ => h⟩) fun h => ⟨hba, fun _ => h⟩
      · exact .inl ⟨hab, fun h => absurd h hba⟩
    · have hba := (inDirection_total key a b).resolve_left hab
      exact .inr ⟨hba, fun h => absurd h hab⟩

theorem inOrder_trans {sort : SortKeys} {a b c : Document ι} (h : inOrder sort a b)
    (h' : inOrder sort b c) : inOrder sort a c := by
  induction sort with
  | nil => trivial
  | cons key keys ih =>
    refine ⟨inDirection_trans h.1 h'.1, fun hca => ih (h.2 ?_) (h'.2 ?_)⟩
    · exact inDirection_trans h'.1 hca
    · exact inDirection_trans hca h.1

instance (sort : SortKeys) : Std.Total (inOrder (ι := ι) sort) := ⟨inOrder_total sort⟩

instance (sort : SortKeys) : IsTrans (Document ι) (inOrder sort) := ⟨fun _ _ _ => inOrder_trans⟩

variable (internalIds : InternalIds ι) (docs : Documents ι)

variable {internalIds docs} in
/-- A query returns documents that its filter selects. -/
theorem mem_find {opt : FindOptions} {ds : List (Document ι)} {d : Document ι}
    (h : find internalIds opt docs = .ok ds) (hd : d ∈ ds) :
    d ∈ docs.rows ∧ ∃ mongoFilter, getMongoMessage internalIds opt = .ok mongoFilter ∧
      mongoFilter d = true := by
  unfold find at h
  cases hfilter : getMongoMessage internalIds opt with
  | error e =>
    rw [hfilter] at h
    cases h
  | ok mongoFilter =>
    rw [hfilter] at h
    cases h
    have hlimited : ∀ l : List (Document ι), d ∈ limited opt.limit l → d ∈ l := by
      intro l hl
      unfold limited at hl
      split_ifs at hl
      · exact hl
      · exact List.mem_of_mem_take hl
    have hmem : d ∈ docs.rows.filter mongoFilter := by
      have hsorted := hlimited _ hd
      cases hsort : opt.sort with
      | none =>
        rw [hsort] at hsorted
        exact hsorted
      | some sort =>
        rw [hsort] at hsorted
        exact (List.mem_insertionSort _).mp hsorted
    obtain ⟨hrow, hsel⟩ := List.mem_filter.mp hmem
    exact ⟨hrow, mongoFilter, rfl, hsel⟩

omit internalIds docs in
/-- An empty list of ids selects every document, as a missing one does. -/
theorem selects_eq (filter : InternalFilter) (gt lte : Option ι) (d : Document ι) :
    selects filter gt lte d =
      ((filter.ids.all fun ids => ids.isEmpty || ids.contains d.key.2) &&
      (filter.queue == "" || d.key.1 == filter.queue) &&
      (filter.queuePrefix == "" || d.value.queuePrefix == filter.queuePrefix) &&
      (gt.all fun i => decide (i < d.serial)) &&
      (lte.all fun i => decide (d.serial ≤ i)) &&
      (filter.expiryDate.all fun t => decide (d.value.expiryDate ≤ dateTime t))) := by
  unfold selects
  cases filter.ids with
  | none => rfl
  | some ids => cases ids <;> rfl

/-- No more documents match than there are ids. -/
theorem length_filter_le (queue : String) (ids : List String) :
    (docs.rows.filter fun d => ids.contains d.key.2 && d.key.1 == queue).length ≤ ids.length := by
  have hkeys : ((docs.rows.filter fun d => ids.contains d.key.2 && d.key.1 == queue).map
      Row.key).Nodup :=
    docs.nodup.sublist (List.filter_sublist.map _)
  have hids : ((docs.rows.filter fun d => ids.contains d.key.2 && d.key.1 == queue).map
      fun d => d.key.2).Nodup := by
    rw [List.nodup_map_iff_inj_on (List.Nodup.of_map _ hkeys)]
    intro d hd d' hd' hid
    have hq := List.of_mem_filter hd
    have hq' := List.of_mem_filter hd'
    simp only [Bool.and_eq_true, beq_iff_eq] at hq hq'
    refine List.inj_on_of_nodup_map hkeys hd hd' (Prod.ext ?_ hid)
    rw [hq.2, hq'.2]
  have hsub : ((docs.rows.filter fun d => ids.contains d.key.2 && d.key.1 == queue).map
      fun d => d.key.2) ⊆ ids := by
    intro id hid
    obtain ⟨d, hd, rfl⟩ := List.mem_map.mp hid
    have hsel := List.of_mem_filter hd
    simp only [Bool.and_eq_true, List.contains_iff_mem] at hsel
    exact hsel.1
  simpa using (List.subperm_of_subset hids hsub).length_le

/-- The documents of some ids of a queue, all of them and in order. -/
theorem find_ids {ids : List String} (hids : ids ≠ []) {queue : String} (hqueue : queue ≠ "")
    (sort : SortKeys) (retry : Bool) :
    ∃ ds, find internalIds
        { sort := some sort
          limit := ids.length
          internalFilter := some { ids := some ids, queue := queue }
          retry := retry } docs = .ok ds ∧
      ds.Pairwise (inOrder sort) ∧
      ∀ d, d ∈ ds ↔ d ∈ docs.rows ∧ d.key.1 = queue ∧ d.key.2 ∈ ids := by
  obtain ⟨id, rest, rfl⟩ := List.exists_cons_of_ne_nil hids
  refine ⟨(docs.rows.filter fun d =>
      (id :: rest).contains d.key.2 && d.key.1 == queue).insertionSort (inOrder sort), ?_,
    List.pairwise_insertionSort _ _, fun d => ?_⟩
  · have hlen := length_filter_le docs queue (id :: rest)
    have hsel : selects (ι := ι) { ids := some (id :: rest), queue := queue } none none =
        fun d => (id :: rest).contains d.key.2 && d.key.1 == queue := by
      funext d
      simp [selects, beq_false_of_ne hqueue]
    change Except.ok (limited (id :: rest).length ((docs.rows.filter (selects (ι := ι)
      { ids := some (id :: rest), queue := queue } none none)).insertionSort (inOrder sort))) = _
    have hlimit : ((id :: rest).length : ℤ) ≠ 0 := by
      rw [List.length_cons]
      omega
    rw [hsel, limited, if_neg hlimit, Int.natAbs_natCast, List.take_of_length_le]
    rw [List.length_insertionSort]
    exact hlen
  · rw [List.mem_insertionSort, List.mem_filter]
    simp only [Bool.and_eq_true, List.contains_iff_mem, beq_iff_eq]
    exact and_congr_right fun _ => And.comm

theorem breakpoint_text (i : ι) : breakpoint internalIds (internalIds.text i) = .ok (some i) := by
  rw [breakpoint, if_neg (internalIds.text_ne_empty i), internalIds.parse_text]

/-- Text of a cursor; there is none before the first page. -/
def cursorText : Option ι → String
  | none => ""
  | some i => internalIds.text i

theorem breakpoint_cursorText (cursor : Option ι) :
    breakpoint internalIds (cursorText internalIds cursor) = .ok cursor := by
  cases cursor with
  | none => rfl
  | some i => exact breakpoint_text internalIds i

/-- The documents after a cursor and up to a bound, in the order of their internal ids. -/
def between (cursor : Option ι) (bound : ι) : List (Document ι) :=
  docs.rows.filter fun d => (cursor.all fun i => decide (i < d.serial)) && decide (d.serial ≤ bound)

variable {docs} in
theorem mem_between {cursor : Option ι} {bound : ι} {d : Document ι} :
    d ∈ between docs cursor bound ↔
      d ∈ docs.rows ∧ (∀ c, cursor = some c → c < d.serial) ∧ d.serial ≤ bound := by
  simp [between, Option.all_eq_true]

theorem between_sorted (cursor : Option ι) (bound : ι) :
    (between docs cursor bound).Pairwise fun a b => a.serial < b.serial :=
  docs.sorted.filter _

/-- After a page that ends with `d` come the documents that the page has left out. -/
theorem between_getLast {cursor : Option ι} {bound : ι} {n : ℕ} {d : Document ι}
    (h : ((between docs cursor bound).take n).getLast? = some d) :
    between docs (some d.serial) bound = (between docs cursor bound).drop n := by
  obtain ⟨front, hfront⟩ := List.getLast?_eq_some_iff.mp h
  have hsplit : between docs cursor bound = front ++ [d] ++ (between docs cursor bound).drop n := by
    rw [← hfront, List.take_append_drop]
  have hsorted := between_sorted docs cursor bound
  rw [hsplit, List.pairwise_append, List.pairwise_append] at hsorted
  obtain ⟨⟨-, -, hle⟩, -, hlt⟩ := hsorted
  have hd : d ∈ between docs cursor bound := by
    rw [hsplit]
    simp
  have hfilter : between docs (some d.serial) bound =
      (between docs cursor bound).filter fun x => d.serial < x.serial := by
    unfold between
    rw [List.filter_filter]
    refine List.filter_congr fun x _ => ?_
    have hcursor : d.serial < x.serial → (cursor.all fun i => decide (i < x.serial)) = true := by
      intro hx
      rw [Option.all_eq_true]
      intro c hc
      exact decide_eq_true (((mem_between.mp hd).2.1 c hc).trans hx)
    by_cases hx : d.serial < x.serial
    · simp [hx, hcursor hx]
    · simp [hx]
  have hnone : (front ++ [d]).filter (fun x => d.serial < x.serial) = [] := by
    rw [List.filter_eq_nil_iff]
    intro x hx
    rcases List.mem_append.mp hx with hx | hx
    · simpa using (hle x hx d List.mem_cons_self).le
    · rw [List.mem_singleton.mp hx]
      simp
  have hall : ((between docs cursor bound).drop n).filter (fun x => d.serial < x.serial) =
      (between docs cursor bound).drop n := by
    rw [List.filter_eq_self]
    intro x hx
    exact decide_eq_true (hlt d (by simp) x hx)
  rw [hfilter, hsplit, List.filter_append, hnone, List.nil_append, ← hsplit, hall]

/-- Documents created later are above the bound, and no others come in. -/
theorem length_between_le {docs docs' : Documents ι} (h : docs.Grows docs') {bound : ι}
    (hbound : bound ≤ docs.last) (cursor : Option ι) :
    (between docs' cursor bound).length ≤ (between docs cursor bound).length := by
  have hnodup : ((between docs' cursor bound).map Row.serial).Nodup := by
    rw [List.Nodup, List.pairwise_map]
    exact (between_sorted docs' cursor bound).imp ne_of_lt
  have hsub : (between docs' cursor bound).map Row.serial ⊆
      (between docs cursor bound).map Row.serial := by
    intro i hi
    obtain ⟨d, hd, rfl⟩ := List.mem_map.mp hi
    obtain ⟨hrow, hcursor, hle⟩ := mem_between.mp hd
    rcases h.old d hrow with ⟨d', hd', hserial, -⟩ | hlt
    · rw [← hserial] at hcursor hle ⊢
      exact List.mem_map_of_mem (mem_between.mpr ⟨hd', hcursor, hle⟩)
    · exact absurd (hle.trans hbound) (not_le.mpr hlt)
  simpa using (List.subperm_of_subset hnodup hsub).length_le

/-- The documents after a cursor and up to a bound; without one of them there is no limit on that
side. -/
def within (cursor bound : Option ι) : List (Document ι) :=
  docs.rows.filter fun d =>
    (cursor.all fun i => decide (i < d.serial)) && (bound.all fun i => decide (d.serial ≤ i))

variable {docs} in
theorem mem_within {cursor bound : Option ι} {d : Document ι} :
    d ∈ within docs cursor bound ↔ d ∈ docs.rows ∧ (∀ i, cursor = some i → i < d.serial) ∧
      ∀ i, bound = some i → d.serial ≤ i := by
  simp [within, Option.all_eq_true]

theorem find_within (cursor bound : Option ι) {limit : ℕ} (hlimit : limit ≠ 0) :
    find internalIds
        { sort := some [(.internalId, .ascending)]
          limit := limit
          internalFilter := some
            { internalIdBreakpointGt := cursorText internalIds cursor
              internalIdBreakpointLte := cursorText internalIds bound } } docs =
      .ok ((within docs cursor bound).take limit) := by
  have hfilter : getMongoMessage internalIds
      { sort := some [(.internalId, .ascending)]
        limit := limit
        internalFilter := some
          { internalIdBreakpointGt := cursorText internalIds cursor
            internalIdBreakpointLte := cursorText internalIds bound } } =
      .ok fun d => (cursor.all fun i => decide (i < d.serial)) &&
        (bound.all fun i => decide (d.serial ≤ i)) := by
    simp only [getMongoMessage, breakpoint_cursorText]
    refine congrArg Except.ok (funext fun d => ?_)
    simp [selects]
  have hsorted : (within docs cursor bound).Pairwise (inOrder [(.internalId, .ascending)]) :=
    (docs.sorted.filter _).imp fun h => inOrder_singleton.mpr (le_of_lt h)
  rw [find, hfilter]
  change Except.ok (limited limit ((within docs cursor bound).insertionSort _)) = _
  rw [hsorted.insertionSort_eq, limited, if_neg (by exact_mod_cast hlimit), Int.natAbs_natCast]

/-- The last document, if there is one. -/
theorem find_last : docs.rows = [] ∧
      find internalIds { sort := some [(.internalId, .descending)], limit := 1 } docs = .ok [] ∨
    ∃ d ∈ docs.rows, (∀ d' ∈ docs.rows, d'.serial ≤ d.serial) ∧
      find internalIds { sort := some [(.internalId, .descending)], limit := 1 } docs =
        .ok [d] := by
  have hfind : find internalIds { sort := some [(.internalId, .descending)], limit := 1 } docs =
      .ok ((docs.rows.insertionSort (inOrder [(.internalId, .descending)])).take 1) := by
    change Except.ok ((List.insertionSort _ (docs.rows.filter fun _ => true)).take 1) = _
    rw [List.filter_true]
  have hperm := List.perm_insertionSort (inOrder (ι := ι) [(.internalId, .descending)]) docs.rows
  have hsorted :=
    List.pairwise_insertionSort (inOrder (ι := ι) [(.internalId, .descending)]) docs.rows
  cases hl : docs.rows.insertionSort (inOrder [(.internalId, .descending)]) with
  | nil =>
    rw [hl] at hperm hfind
    exact .inl ⟨hperm.symm.eq_nil, hfind⟩
  | cons d ds =>
    rw [hl] at hperm hfind hsorted
    refine .inr ⟨d, hperm.subset List.mem_cons_self, fun d' hd' => ?_, hfind⟩
    rcases List.mem_cons.mp (hperm.symm.subset hd') with rfl | hd'
    · exact le_rfl
    · exact inOrder_singleton.mp ((List.pairwise_cons.mp hsorted).1 d' hd')

end Deckard.MongoStorage
