import Deckard.Redis

/-!
# The Lua scripts

Each script is the sequence of commands that it issues. Its run is then computed in
closed form over keys that are assumed distinct, including the runs that a refused
score cuts short: those keep what the commands before it have done.
-/
namespace Deckard.RedisScripts

open Binary64 Effect Redis

/-- Removes all elements from different sorted sets. -/
def removeElementScript (pools ids : List String) : Script ℕ := do
  let removed ← pools.mapM fun pool => do
    unpack ids.length
    zrem pool ids
  return removed.sum

/-- Moves an element from a sorted set to another setting a specific score. -/
def moveElementScript (destination source : String) (score : Float64) (id : String) :
    Script ℕ := do
  let removed ← zrem source [id]
  if removed > 0 then
    zadd destination [(score, id)]
  else
    return 0

/-- Moves an element into a lock set, and keeps the score for its unlocking unless that
score is the undefined one. -/
def lockElementScript (active lock lockScore : String) (score : Float64) (id : String)
    (resultScore : Float64) : Script ℕ := do
  let removed ← zrem active [id]
  if removed > 0 then
    let result ← zadd lock [(score, id)]
    if resultScore.eq (.ofInt (-1)) then
      return result
    else
      zadd lockScore [(resultScore, id)]
  else
    return 0

/-- Adds the elements that no set of `destination :: others` holds, and returns them. -/
def addElementsScript (destination : String) (others : List String)
    (elements : List (Float64 × String)) : Script (List String) := do
  let toInsert ← elements.filterM fun e => do
    let exists_ ← (destination :: others).anyM fun pool => do
      let score ← zscore pool e.2
      return score.isSome
    return !exists_
  let inserted := toInsert.map Prod.snd
  if toInsert.isEmpty then
    return inserted
  else
    unpack (2 * toInsert.length)
    let _ ← zadd destination toInsert
    return inserted

/-- Last part of the two scripts below: the elements go one by one into the destination
and then out of the source together. -/
def moveAll (destination source : String) (newScore : Float64) (elements : List String) :
    Script (List String) := do
  if elements.isEmpty then
    return []
  else
    forM elements fun key => do
      let _ ← zadd destination [(newScore, key)]
    unpack elements.length
    let _ ← zrem source elements
    return elements

/-- Moves the elements with a score up to the given one, at most `count` of them. -/
def moveFilteredElementsScript (destination source : String) (filterScore newScore : Float64)
    (count : ℤ) : Script (List String) := do
  let elements ← zrevrangeByScore source filterScore (.ofInt 0) count
  moveAll destination source newScore elements

/-- Unlocks the elements locked up to `now`, each with the score kept for it or else the
default one. -/
def unlockElementsScript (lock destination lockScore : String) (count : ℤ)
    (now defaultScore : Float64) : Script (List String) := do
  let elements ← zrevrangeByScore lock now (.ofInt 0) count
  if elements.isEmpty then
    return []
  else
    let bulkData ← elements.mapM fun key => do
      let kept ← zscore lockScore key
      return (kept.elim defaultScore .num, key)
    unpack (2 * bulkData.length)
    let _ ← zadd destination bulkData
    unpack elements.length
    let _ ← zrem lock elements
    unpack elements.length
    let _ ← zrem lockScore elements
    return elements

/-- First part of the pull script: by position without bounds, by score otherwise. -/
def selectElements (source : String) (n : ℤ) (minScore maxScore : Option Float64) :
    Script (List String) :=
  if minScore.isNone ∧ maxScore.isNone then do
    let last ← luaInteger (n - 1)
    zrange source 0 last
  else
    zrangeByScore source (minScore.getD (.num .negInf)) (maxScore.getD (.num .posInf)) n

/-- Moves `n` elements within the score bounds into another set. -/
def pullElementsScript (source destination : String) (n : ℤ) (newScore : Float64)
    (minScore maxScore : Option Float64) : Script (List String) := do
  let elements ← selectElements source n minScore maxScore
  moveAll destination source newScore elements

section Runs

variable {s : Redis} {id : String} {x y : Number}

/-- State after the elements have gone from the source to the destination. -/
def shift (s : Redis) (destination source : String) (x : Number) (l : List String) : Redis :=
  (s.setZ destination ((s.zset destination).addAll (l.map fun a => (x, a)))).setZ source
    ((s.zset source).eraseAll l)

@[simp] theorem score_shift (destination source : String) (l : List String) (key : String) :
    ((shift s destination source x l).zset key).score id =
      if key = source then (if id ∈ l then none else (s.zset key).score id)
      else if key = destination then (if id ∈ l then some x else (s.zset key).score id)
      else (s.zset key).score id := by
  by_cases hs : key = source
  · simp [shift, hs]
  · by_cases hd : key = destination
    · subst hd
      simp [shift, hs, SortedSet.score_addAll_map _ fun _ => x]
    · simp [shift, hs, hd]

@[simp] theorem str_shift (destination source : String) (l : List String) :
    (shift s destination source x l).str = s.str := rfl

theorem shift_singleton {destination source : String} (hne : destination ≠ source) :
    shift s destination source x [id] =
      (s.setZ source ((s.zset source).erase id)).setZ destination
        ((s.zset destination).add x id) := by
  simp [shift, Redis.setZ, SortedSet.addAll, SortedSet.eraseAll, Function.update_comm hne]

/-- Moving an element that the source does not hold changes nothing. -/
theorem exec_moveElementScript_absent {destination source : String} {score : Float64}
    (h : (s.zset source).score id = none) :
    exec (moveElementScript destination source score id) s = (.ok 0, s) := by
  simp [moveElementScript, h, SortedSet.erase_of_score_eq_none h]

theorem exec_moveElementScript {destination source : String} (hne : destination ≠ source)
    (h : ((s.zset source).score id).isSome) :
    exec (moveElementScript destination source (.num x) id) s =
      (.ok (if ((s.zset destination).score id).isSome then 0 else 1),
        shift s destination source x [id]) := by
  simp [moveElementScript, h, hne, shift_singleton hne]

/-- The removal that comes first stays when the score is refused. -/
theorem exec_moveElementScript_nan {destination source : String}
    (h : ((s.zset source).score id).isSome) :
    exec (moveElementScript destination source .nan id) s =
      (.error .notAValidFloat, s.setZ source ((s.zset source).erase id)) := by
  simp [moveElementScript, h]

variable {active lock lockScore : String}

theorem exec_lockElementScript_absent {score resultScore : Float64}
    (h : (s.zset active).score id = none) :
    exec (lockElementScript active lock lockScore score id resultScore) s = (.ok 0, s) := by
  simp [lockElementScript, h, SortedSet.erase_of_score_eq_none h]

theorem exec_lockElementScript_undefined {resultScore : Float64} (hne : lock ≠ active)
    (hu : resultScore.eq (.ofInt (-1))) (h : ((s.zset active).score id).isSome) :
    exec (lockElementScript active lock lockScore (.num x) id resultScore) s =
      (.ok (if ((s.zset lock).score id).isSome then 0 else 1),
        shift s lock active x [id]) := by
  simp [lockElementScript, h, hne, hu, shift_singleton hne]

theorem exec_lockElementScript (hla : lock ≠ active) (hsa : lockScore ≠ active)
    (hsl : lockScore ≠ lock) (hu : ¬ (Float64.num y).eq (.ofInt (-1)))
    (h : ((s.zset active).score id).isSome) :
    exec (lockElementScript active lock lockScore (.num x) id (.num y)) s =
      (.ok (if ((s.zset lockScore).score id).isSome then 0 else 1),
        (shift s lock active x [id]).setZ lockScore ((s.zset lockScore).add y id)) := by
  simp [lockElementScript, h, hla, hsa, hsl, hu, shift_singleton hla]

/-- A refused score leaves the element in the lock set without a kept score. -/
theorem exec_lockElementScript_nan (hne : lock ≠ active)
    (h : ((s.zset active).score id).isSome) :
    exec (lockElementScript active lock lockScore (.num x) id .nan) s =
      (.error .notAValidFloat, shift s lock active x [id]) := by
  simp [lockElementScript, h, hne, Float64.eq, shift_singleton hne]

variable {destination source : String} {others : List String}

/-- No set of the list holds the element. -/
def missing (s : Redis) (pools : List String) (e : Float64 × String) : Bool :=
  !pools.any fun pool => ((s.zset pool).score e.2).isSome

/-- The script splits its elements by a test that changes nothing. -/
theorem exec_addElementsScript_eq {elements : List (Float64 × String)} :
    exec (addElementsScript destination others elements) s =
      let toInsert := elements.filter (missing s (destination :: others))
      exec (if toInsert.isEmpty then pure (toInsert.map Prod.snd) else do
        unpack (2 * toInsert.length)
        let _ ← zadd destination toInsert
        pure (toInsert.map Prod.snd)) s := by
  have hfilter : exec (elements.filterM fun e => do
        let exists_ ← (destination :: others).anyM fun pool => do
          let score ← zscore pool e.2
          return score.isSome
        return !exists_) s = (.ok (elements.filter (missing s (destination :: others))), s) := by
    refine exec_filterM fun e => ?_
    have hany : exec ((destination :: others).anyM fun pool => do
        let score ← zscore pool e.2
        return score.isSome) s =
        (.ok ((destination :: others).any fun pool => ((s.zset pool).score e.2).isSome), s) :=
      exec_anyM fun _ => rfl
    rw [exec_bind, hany]
    rfl
  rw [addElementsScript, exec_bind, hfilter, andThen_ok]

theorem exec_addElementsScript {elements : List (Float64 × String)}
    {ps : List (Number × String)}
    (hp : parseScores (elements.filter (missing s (destination :: others))) = some ps)
    (hlen : 2 * elements.length < luaiMaxCStack) :
    exec (addElementsScript destination others elements) s =
      (.ok (ps.map Prod.snd), s.setZ destination ((s.zset destination).addAll ps)) := by
  have hle := List.length_filter_le (missing s (destination :: others)) elements
  have hsnd : ps.map Prod.snd =
      (elements.filter (missing s (destination :: others))).map Prod.snd := by
    rw [parseScores_eq_some.mp hp]
    simp
  rw [exec_addElementsScript_eq, hsnd]
  cases hmiss : elements.filter (missing s (destination :: others)) with
  | nil =>
    rw [hmiss] at hp
    cases hp
    simp [SortedSet.addAll]
  | cons e es =>
    rw [hmiss] at hp hle
    simp only [List.isEmpty_cons, Bool.false_eq_true, if_false]
    rw [exec_bind, exec_unpack (by omega), andThen_ok, exec_bind, exec_zadd hp (by simp),
      andThen_ok, exec_pure]

/-- A refused score leaves the whole batch out. -/
theorem exec_addElementsScript_nan {elements : List (Float64 × String)}
    (hp : parseScores (elements.filter (missing s (destination :: others))) = none)
    (hlen : 2 * elements.length < luaiMaxCStack) :
    exec (addElementsScript destination others elements) s = (.error .notAValidFloat, s) := by
  have hle := List.length_filter_le (missing s (destination :: others)) elements
  have hnan := parseScores_eq_none.mp hp
  rw [exec_addElementsScript_eq]
  cases hmiss : elements.filter (missing s (destination :: others)) with
  | nil => simp [hmiss] at hnan
  | cons e es =>
    rw [hmiss] at hnan hle
    simp only [List.isEmpty_cons, Bool.false_eq_true, if_false]
    rw [exec_bind, exec_unpack (by omega), andThen_ok, exec_bind, exec_zadd_nan hnan,
      andThen_error]

theorem exec_moveAll (hne : destination ≠ source) {l : List String}
    (hlen : l.length < luaiMaxCStack) :
    exec (moveAll destination source (.num x) l) s = (.ok l, shift s destination source x l) := by
  have hloop : exec (forM l fun key => do let _ ← zadd destination [(.num x, key)]) s =
      (.ok ⟨⟩, s.setZ destination ((s.zset destination).addAll (l.map fun a => (x, a)))) := by
    rw [exec_forM (g := fun t key => t.setZ destination ((t.zset destination).add x key))
      fun _ _ _ => by simp [Except.map]]
    congr 1
    clear hlen
    induction l generalizing s with
    | nil => simp [SortedSet.addAll]
    | cons a l ih => simp [ih, SortedSet.addAll]
  rw [moveAll, exec_ite]
  split_ifs with hl
  · rw [List.isEmpty_iff.mp hl]
    simp [shift, SortedSet.addAll, SortedSet.eraseAll]
  · have hl' : l ≠ [] := fun h => hl (by simp [h])
    rw [exec_bind, hloop, andThen_ok, exec_bind, exec_unpack hlen, andThen_ok, exec_bind,
      exec_zrem hl', andThen_ok, exec_pure]
    simp [shift, hne.symm]

theorem exec_moveFilteredElementsScript (hne : destination ≠ source) (filterScore : Number)
    {count : ℤ} (hlo : 0 ≤ count) (hhi : count < luaiMaxCStack) {l : List String}
    (hl : l = limit count ((s.zset source).revRangeByScore filterScore (.ofInt 0))) :
    exec (moveFilteredElementsScript destination source (.num filterScore) (.num x) count) s =
      (.ok l, shift s destination source x l) := by
  have hlen := length_limit_le hlo ((s.zset source).revRangeByScore filterScore (.ofInt 0))
  rw [← hl] at hlen
  rw [moveFilteredElementsScript, exec_bind, Float64.ofInt_eq,
    exec_zrevrangeByScore, andThen_ok, ← hl,
    exec_moveAll hne (by omega)]

/-- The first elements by position are the first ones without bounds on the score. -/
theorem slice_members {z : ZSet} {n : ℤ} (hn : 1 ≤ n) :
    slice 0 (n - 1) z.members = limit n (z.rangeByScore .negInf .posInf) := by
  have hall : z.rangeByScore .negInf .posInf = z.members := by
    simp [SortedSet.rangeByScore, SortedSet.members]
  simp only [hall, slice, limit, lt_irrefl, if_false, if_neg (show ¬ n - 1 < 0 by omega),
    if_neg (show ¬ n < 0 by omega)]
  congr 1
  omega

theorem exec_selectElements {n : ℤ} (hlo : 1 ≤ n) (hhi : n < luaiMaxCStack)
    (minScore maxScore : Option Number) :
    exec (selectElements source n (minScore.map .num) (maxScore.map .num)) s =
      (.ok (limit n ((s.zset source).rangeByScore (minScore.getD .negInf) (maxScore.getD .posInf))),
        s) := by
  cases minScore <;> cases maxScore
  case none.none =>
    rw [show (luaiMaxCStack : ℤ) = 8000 from rfl] at hhi
    have habs : |n - 1| < 100000000000000 := by
      rw [abs_of_nonneg (by omega)]
      omega
    simp [selectElements, luaInteger, habs, zrange, slice_members hlo]
  all_goals simp [selectElements, zrangeByScore]

/-- A NaN bound is refused before anything is moved. -/
theorem exec_selectElements_nan {n : ℤ} {minScore maxScore : Option Float64}
    (h : minScore = some .nan ∨ maxScore = some .nan) :
    exec (selectElements source n minScore maxScore) s = (.error .minOrMaxNotAFloat, s) := by
  rcases h with rfl | rfl
  · simp [selectElements, zrangeByScore]
  · rcases minScore with _ | _ | x <;> simp [selectElements, zrangeByScore]

theorem exec_pullElementsScript (hne : destination ≠ source) {n : ℤ} (hlo : 1 ≤ n)
    (hhi : n < luaiMaxCStack) (minScore maxScore : Option Number) {l : List String}
    (hl : l = limit n
      ((s.zset source).rangeByScore (minScore.getD .negInf) (maxScore.getD .posInf))) :
    exec (pullElementsScript source destination n (.num x) (minScore.map .num)
        (maxScore.map .num)) s = (.ok l, shift s destination source x l) := by
  have hlen := length_limit_le (by omega : 0 ≤ n)
    ((s.zset source).rangeByScore (minScore.getD .negInf) (maxScore.getD .posInf))
  rw [← hl] at hlen
  rw [pullElementsScript, exec_bind, exec_selectElements hlo hhi, andThen_ok, ← hl,
    exec_moveAll hne (by omega)]

/-- State after the elements have gone from the lock set to the destination. -/
def unlocked (s : Redis) (lock destination lockScore : String) (y : Number) (l : List String) :
    Redis :=
  ((s.setZ destination ((s.zset destination).addAll
    (l.map fun a => (((s.zset lockScore).score a).getD y, a)))).setZ lock
    ((s.zset lock).eraseAll l)).setZ lockScore ((s.zset lockScore).eraseAll l)

@[simp] theorem score_unlocked (lock destination lockScore : String) (l : List String)
    (key : String) :
    ((unlocked s lock destination lockScore y l).zset key).score id =
      if key = lockScore ∨ key = lock then (if id ∈ l then none else (s.zset key).score id)
      else if key = destination then
        (if id ∈ l then some (((s.zset lockScore).score id).getD y) else (s.zset key).score id)
      else (s.zset key).score id := by
  by_cases hs : key = lockScore
  · simp [unlocked, hs]
  · by_cases hk : key = lock
    · subst hk
      simp [unlocked, hs]
    · by_cases hd : key = destination
      · subst hd
        simp [unlocked, hs, hk,
          SortedSet.score_addAll_map _ fun a => ((s.zset lockScore).score a).getD y]
      · simp [unlocked, hs, hk, hd]

theorem exec_unlockElementsScript {destination : String} (hdl : destination ≠ lock)
    (hds : destination ≠ lockScore) (hls : lock ≠ lockScore) (now : Number) {count : ℤ}
    (hlo : 0 ≤ count) (hhi : 2 * count < luaiMaxCStack) {l : List String}
    (hl : l = limit count ((s.zset lock).revRangeByScore now (.ofInt 0))) :
    exec (unlockElementsScript lock destination lockScore count (.num now) (.num y)) s =
      (.ok l, unlocked s lock destination lockScore y l) := by
  have hlen := length_limit_le hlo ((s.zset lock).revRangeByScore now (.ofInt 0))
  rw [← hl] at hlen
  have hbulk : exec (l.mapM fun key => do
        let kept ← zscore lockScore key
        return (kept.elim (Float64.num y) Float64.num, key)) s =
      (.ok ((l.map fun a => (((s.zset lockScore).score a).getD y, a)).map
        fun p => (Float64.num p.1, p.2)), s) := by
    rw [List.map_map]
    refine exec_mapM fun a => ?_
    cases h : (s.zset lockScore).score a <;> simp [h, Except.map]
  rw [unlockElementsScript, exec_bind, Float64.ofInt_eq,
    exec_zrevrangeByScore, andThen_ok, ← hl, exec_ite]
  split_ifs with hempty
  · rw [List.isEmpty_iff.mp hempty]
    simp [unlocked, SortedSet.addAll, SortedSet.eraseAll]
  · have hne : l ≠ [] := fun h => hempty (by simp [h])
    rw [exec_bind, hbulk, andThen_ok, exec_bind, exec_unpack (by simp; omega), andThen_ok,
      exec_bind, exec_zadd (parseScores_eq_some.mpr rfl) (by simpa using hne), andThen_ok,
      exec_bind, exec_unpack (by omega), andThen_ok, exec_bind, exec_zrem hne, andThen_ok,
      exec_bind, exec_unpack (by omega), andThen_ok, exec_bind, exec_zrem hne, andThen_ok,
      exec_pure]
    simp [unlocked, hdl.symm, hds.symm, hls.symm]

theorem exec_removeElementScript (pools : List String) {ids : List String} (hne : ids ≠ [])
    (hlen : ids.length < luaiMaxCStack) :
    ∃ n t, exec (removeElementScript pools ids) s = (.ok n, t) ∧ t.str = s.str ∧
      ∀ key id, (t.zset key).score id =
        if key ∈ pools ∧ id ∈ ids then none else (s.zset key).score id := by
  suffices hloop : ∃ counts t, exec (pools.mapM fun pool => do
        unpack ids.length
        zrem pool ids) s = (.ok counts, t) ∧ t.str = s.str ∧
      ∀ key id, (t.zset key).score id =
        if key ∈ pools ∧ id ∈ ids then none else (s.zset key).score id by
    obtain ⟨counts, t, hrun, ht⟩ := hloop
    exact ⟨counts.sum, t, by rw [removeElementScript, exec_bind, hrun]; rfl, ht⟩
  induction pools generalizing s with
  | nil => exact ⟨[], s, rfl, rfl, by simp⟩
  | cons pool pools ih =>
    obtain ⟨counts, t, hrun, hstr, hscore⟩ :=
      ih (s := s.setZ pool ((s.zset pool).eraseAll ids))
    refine ⟨(s.zset pool).deletedCount ids :: counts, t, ?_, hstr, fun key id => ?_⟩
    · rw [List.mapM_cons, exec_bind, exec_bind, exec_unpack hlen, andThen_ok, exec_zrem hne,
        andThen_ok, exec_bind, hrun]
      rfl
    · rw [hscore, Redis.zset_setZ]
      by_cases hk : key = pool
      · subst hk
        by_cases hid : id ∈ ids <;> simp [hid]
      · simp [hk]

end Runs

end Deckard.RedisScripts
