import Deckard.MemoryInvariant
import Deckard.StableSort

/-!
# Score filters of the memory cache

A pull of the memory cache looks at as many entries as it may return and puts those outside
the bounds back, each in front of the entries with the same score. It therefore misses
entries that stand behind the ones it has looked at, and turns round those with equal
scores.
-/
namespace Deckard

open Binary64 Cache Runs StableSort

namespace EntryList

theorem removeEntry_of_notMem {l : EntryList} {id : String} (h : id ∉ l.ids) :
    l.removeEntry id = l := by
  obtain ⟨entries, nodup⟩ := l
  simp only [removeEntry, mk.injEq]
  apply List.eraseP_of_forall_not
  intro e he heq
  exact h (List.mem_map.mpr ⟨e, he, by simpa using heq⟩)

/-- Entries with new ids are inserted into the list as it is. -/
theorem entries_foldl_insertEntry {l : EntryList} {es : List MemoryMessageEntry}
    (h : (es.map MemoryMessageEntry.id ++ l.ids).Nodup) :
    (es.foldl insertEntry l).entries =
      es.foldl (fun entries e => entries.orderedInsert (fun a b => a.score ≤ b.score) e)
        l.entries := by
  induction es generalizing l with
  | nil => rfl
  | cons e es ih =>
    obtain ⟨hnew, hrest⟩ := List.nodup_cons.mp h
    have hinsert : (l.insertEntry e).entries =
        l.entries.orderedInsert (fun a b => a.score ≤ b.score) e := by
      have hself := removeEntry_of_notMem fun hmem => hnew (List.mem_append_right _ hmem)
      exact congrArg (fun l : EntryList => l.entries.orderedInsert _ e) hself
    have hperm : (es.map MemoryMessageEntry.id ++ (l.insertEntry e).ids).Perm
        (e.id :: (es.map MemoryMessageEntry.id ++ l.ids)) := by
      rw [ids, hinsert]
      exact (((List.perm_orderedInsert _ e l.entries).map _).append_left _).trans
        List.perm_middle
    rw [List.foldl_cons, ih (hperm.nodup_iff.mpr h), hinsert]
    rfl

end EntryList

namespace MemoryCache

variable {minScore maxScore : Option Float64}

/-- The entries that a pull of at most `n` messages is to take. -/
def eligible (entries : List MemoryMessageEntry) (n : ℕ) (minScore maxScore : Option Float64) :
    List MemoryMessageEntry :=
  (entries.filter (¬ Excluded minScore maxScore ·)).take n

/-- A pull takes the first entries within the bounds and leaves the others as they are. -/
structure HonoursFilter (c : MemoryCache) (clock : Clock) (queue : String) (n : Int64)
    (minScore maxScore : Option Float64) (ackDeadlineMs : Int64) : Prop where
  result : (c.pullMessages clock queue n minScore maxScore ackDeadlineMs).1 =
    .ids ((eligible (c.pool .active queue).entries n.toInt.toNat minScore maxScore).map
      MemoryMessageEntry.id)
  moved : ∀ id, id ∈ ((c.pullMessages clock queue n minScore maxScore ackDeadlineMs).2.pool
      .processing queue).ids ↔
    id ∈ (eligible (c.pool .active queue).entries n.toInt.toNat minScore maxScore).map
      MemoryMessageEntry.id ∨ id ∈ (c.pool .processing queue).ids
  left : ((c.pullMessages clock queue n minScore maxScore ackDeadlineMs).2.pool
      .active queue).entries =
    (c.pool .active queue).entries.filter
      (· ∉ eligible (c.pool .active queue).entries n.toInt.toNat minScore maxScore)

/-- The first entries of the list hide nothing and can be put back in their places. -/
structure Returnable (looked rest : List MemoryMessageEntry) (minScore maxScore : Option Float64) :
    Prop where
  complete : (∀ e ∈ looked, ¬ Excluded minScore maxScore e) ∨
    ∀ e ∈ rest, Excluded minScore maxScore e
  ascending : (looked.filter (Excluded minScore maxScore)).Pairwise
    fun a b => ¬ b.score ≤ a.score
  below : ∀ a ∈ looked, Excluded minScore maxScore a → ∀ b ∈ rest.head?, a.score ≤ b.score

section Eligible

variable {looked rest : List MemoryMessageEntry} {n : ℕ}

/-- The entries looked at come first; more are to be taken if some of them are excluded. -/
theorem eligible_append (hle : looked.length ≤ n) :
    eligible (looked ++ rest) n minScore maxScore =
      looked.filter (¬ Excluded minScore maxScore ·) ++
        (rest.filter (¬ Excluded minScore maxScore ·)).take
          (n - (looked.filter (¬ Excluded minScore maxScore ·)).length) := by
  have hlen := List.length_filter_le (fun e => decide ¬ Excluded minScore maxScore e) looked
  rw [eligible, List.filter_append, List.take_append, List.take_of_length_le (by omega)]

theorem eligible_eq_iff (hle : looked.length ≤ n) (hn : looked.length = n ∨ rest = []) :
    eligible (looked ++ rest) n minScore maxScore =
        looked.filter (¬ Excluded minScore maxScore ·) ↔
      (∀ e ∈ looked, ¬ Excluded minScore maxScore e) ∨
        ∀ e ∈ rest, Excluded minScore maxScore e := by
  rw [eligible_append hle, List.append_right_eq_self, List.take_eq_nil_iff]
  rcases hn with rfl | rfl
  · have hlen := List.length_filter_le (fun e => decide ¬ Excluded minScore maxScore e) looked
    have hall : looked.length - (looked.filter (¬ Excluded minScore maxScore ·)).length = 0 ↔
        (looked.filter (¬ Excluded minScore maxScore ·)).length = looked.length := by omega
    rw [hall, List.length_filter_eq_length_iff]
    simp
  · simp

/-- Equal ids are enough, since the entries handed out come first in any case. -/
theorem eligible_ids_eq_iff (hle : looked.length ≤ n) :
    (eligible (looked ++ rest) n minScore maxScore).map MemoryMessageEntry.id =
        (looked.filter (¬ Excluded minScore maxScore ·)).map MemoryMessageEntry.id ↔
      eligible (looked ++ rest) n minScore maxScore =
        looked.filter (¬ Excluded minScore maxScore ·) := by
  rw [eligible_append hle, List.map_append, List.append_right_eq_self, List.map_eq_nil_iff,
    List.append_right_eq_self]

/-- Without the entries that are handed out, those set aside are in front of the rest. -/
theorem filter_notMem_handed (hnodup : (looked ++ rest).Nodup) :
    (looked ++ rest).filter (· ∉ looked.filter (¬ Excluded minScore maxScore ·)) =
      looked.filter (Excluded minScore maxScore) ++ rest := by
  rw [List.filter_append]
  congr 1
  · apply List.filter_congr
    intro e he
    simp [he]
  · rw [List.filter_eq_self]
    intro e he
    have hnot : e ∉ looked := (List.disjoint_of_nodup_append hnodup).symm he
    simp [hnot]

end Eligible

/-- For every state of the cache, a pull honours its filter exactly if the entries it looks at
hide nothing and can be put back in their places. -/
theorem pullMessages_honoursFilter_iff (c : MemoryCache) (clock : Clock) (queue : String)
    (n : Int64) (minScore maxScore : Option Float64) (ackDeadlineMs : Int64) :
    HonoursFilter c clock queue n minScore maxScore ackDeadlineMs ↔
      Returnable ((c.pool .active queue).entries.take n.toInt.toNat)
        ((c.pool .active queue).entries.drop n.toInt.toNat) minScore maxScore := by
  obtain ⟨hres, ⟨rest, hrest, hact⟩, hproc, -⟩ :=
    pullMessages_spec c clock queue n minScore maxScore ackDeadlineMs
  have hsplit := List.take_append_drop n.toInt.toNat (c.pool .active queue).entries
  have hle := List.length_take_le n.toInt.toNat (c.pool .active queue).entries
  have hn : ((c.pool .active queue).entries.take n.toInt.toNat).length = n.toInt.toNat ∨
      (c.pool .active queue).entries.drop n.toInt.toNat = [] := by
    rw [List.length_take, List.drop_eq_nil_iff]
    omega
  have hids : ((c.pool .active queue).entries.map MemoryMessageEntry.id).Nodup :=
    (c.pool .active queue).nodup
  rw [← hsplit] at hids
  have hnodup := hids.of_map _
  set looked := (c.pool .active queue).entries.take n.toInt.toNat with hlooked
  rw [← hrest] at hsplit hids hnodup hn ⊢
  -- the entries set aside go back one after the other, in front of what was not looked at
  have hback : (looked.filter (Excluded minScore maxScore)).foldl (fun entries e =>
      entries.orderedInsert (fun a b => a.score ≤ b.score) e) rest.entries =
        looked.filter (Excluded minScore maxScore) ++ rest.entries ↔
      (looked.filter (Excluded minScore maxScore)).Pairwise (fun a b => ¬ b.score ≤ a.score) ∧
        ∀ a ∈ looked.filter (Excluded minScore maxScore), ∀ b ∈ rest.entries.head?,
          a.score ≤ b.score :=
    foldl_orderedInsert_eq_append_iff
      (hnodup.sublist ((List.filter_sublist).append_right _))
  have hentries : (((c.pullMessages clock queue n minScore maxScore ackDeadlineMs).2.pool
      .active queue).entries) = (looked.filter (Excluded minScore maxScore)).foldl (fun entries e =>
      entries.orderedInsert (fun a b => a.score ≤ b.score) e) rest.entries := by
    rw [hact]
    apply EntryList.entries_foldl_insertEntry
    rw [EntryList.ids, ← List.map_append]
    exact hids.sublist (((List.filter_sublist).append_right _).map _)
  constructor
  · rintro ⟨hresult, -, hleft⟩
    rw [hres, ← hsplit] at hresult
    have heq := (eligible_ids_eq_iff hle).mp (Result.ids.inj hresult).symm
    rw [hentries, ← hsplit, heq, filter_notMem_handed hnodup, hback] at hleft
    refine ⟨(eligible_eq_iff hle hn).mp heq, hleft.1, fun a ha hex => ?_⟩
    exact hleft.2 a (List.mem_filter.mpr ⟨ha, by simpa using hex⟩)
  · rintro ⟨hcomplete, hasc, hbelow⟩
    have heq := (eligible_eq_iff hle hn).mpr hcomplete
    rw [hsplit] at heq
    refine ⟨?_, fun id => ?_, ?_⟩
    · rw [hres, heq]
    · rw [heq, hproc, mem_ids_foldl_insertEntry, ids_processingEntries]
    · rw [heq, hentries, ← hsplit, filter_notMem_handed hnodup, hback]
      refine ⟨hasc, fun a ha => ?_⟩
      obtain ⟨ha, hex⟩ := List.mem_filter.mp ha
      exact hbelow a ha (of_decide_eq_true hex)

/-- A message with the score 1 and one with the score 5 are added. -/
def twoScores : List Message :=
  [{ id := "a", queue := "q", score := .ofInt 1 }, { id := "b", queue := "q", score := .ofInt 5 }]

/-- One message of at least 3 is asked for. The pull looks at the first entry only and
returns nothing. -/
theorem pull_misses_eligible :
    ∃ tr c, Run machine new tr c ∧
      ¬ HonoursFilter c (fun _ => 0) "q" 1 (some (.ofInt 3)) none 0 := by
  refine ⟨_, (new.insert "q" twoScores).2, .cons (.insert "q" twoScores) (.nil _), fun h => ?_⟩
  have hreturned : ((new.insert "q" twoScores).2.pullMessages (fun _ => 0) "q" 1
      (some (.ofInt 3)) none 0).1 = .ids [] := by
    decide +kernel
  have heligible : (eligible ((new.insert "q" twoScores).2.pool .active "q").entries 1
      (some (.ofInt 3)) none).map MemoryMessageEntry.id = ["b"] := by
    decide +kernel
  have hresult := h.result
  rw [hreturned, show (1 : Int64).toInt.toNat = 1 from rfl, heligible] at hresult
  cases hresult

end MemoryCache

end Deckard
