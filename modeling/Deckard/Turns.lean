import Deckard.MemoryInvariant
import Deckard.RedisRuns

/-!
# Waiting for a turn

A message waits in the active pool of its queue under a score. Pulls without bounds hand out the
lowest scores first, so that only messages whose scores are not higher go before it: those that
wait with it, and those that come while it waits. How many a client may have to pull before it
gets the message is counted here, for any run of either cache.
-/
namespace Deckard.Turns

open Binary64 Cache Effect Runs Lifecycle

/-- The messages of an active pool with their scores. -/
abbrev Line := List (String × Number)

/-- The other messages with scores that are not higher. -/
def rivals (line : Line) (id : String) (x : Number) : Line :=
  line.filter fun e => e.1 ≠ id ∧ e.2 ≤ x

/-- The ids that a call may bring into the line of a queue with scores up to `x`: for an insertion
all messages of the call, also those that are in a pool already. -/
def arrivals (queue : String) (x : Number) : Call → List String
  | (.insert q messages, _) =>
      if q = queue then (messages.filter fun m => m.score ≤ .num x).map Message.id else []
  | (.makeAvailable message, .flag true) =>
      if message.queue = queue ∧ message.score ≤ .num x then [message.id] else []
  | (.timeoutMessages _ q, .ids ids) => if q = queue then ids else []
  | (.unlockMessages _ _ _, .ids ids) => ids
  | _ => []

/-- How many messages of a queue are asked for without bounds. -/
def requested (queue : String) : Call → ℕ
  | (.pullMessages _ q n none none _, .ids _) => if q = queue then n.toInt.toNat else 0
  | _ => 0

/-- What a call does to the lines: who is neither handed out nor removed stays with its score,
who comes is among the arrivals, and a pull without bounds that passes a message over takes as
many as it asks for, none of them with a higher score. -/
structure Advances (line line' : String → Line) (c : Call) : Prop where
  kept : ∀ queue e, e ∈ line queue → ¬ Pulled queue e.1 c → ¬ Removed queue e.1 c →
    e ∈ line' queue
  entered : ∀ queue e x, e ∈ line' queue → e.2 ≤ x → e ∈ line queue ∨ e.1 ∈ arrivals queue x c
  served : ∀ queue id x, (id, x) ∈ line queue → ¬ Pulled queue id c →
    ∃ l : List String, l.Nodup ∧ l.length = requested queue c ∧ id ∉ l ∧
      ∀ b ∈ l, (∃ y, y ≤ x ∧ (b, y) ∈ line queue) ∧ ∀ y, (b, y) ∉ line' queue

theorem mem_rivals {line : Line} {id : String} {x : Number} {e : String × Number} :
    e ∈ rivals line id x ↔ e ∈ line ∧ e.1 ≠ id ∧ e.2 ≤ x := by
  simp [rivals]

theorem nodup_rivals {line : Line} (h : (line.map Prod.fst).Nodup) (id : String) (x : Number) :
    ((rivals line id x).map Prod.fst).Nodup :=
  h.sublist (List.filter_sublist.map _)

/-- Each message that is handed out before its turn was a rival, and is one no more. -/
theorem Advances.rivals_le {line line' : String → Line} {c : Call} (h : Advances line line' c)
    {queue id : String} {x : Number} (hnodup : ((line' queue).map Prod.fst).Nodup)
    (hid : (id, x) ∈ line queue) (hpulled : ¬ Pulled queue id c) :
    (rivals (line' queue) id x).length + requested queue c ≤
      (rivals (line queue) id x).length + (arrivals queue x c).length := by
  obtain ⟨l, hl, hlen, hout, hserved⟩ := h.served queue id x hid hpulled
  have hdisjoint : ((rivals (line' queue) id x).map Prod.fst ++ l).Nodup := by
    refine (nodup_rivals hnodup id x).append hl fun b hb hbl => ?_
    obtain ⟨e, he, rfl⟩ := List.mem_map.mp hb
    exact (hserved e.1 hbl).2 e.2 (mem_rivals.mp he).1
  have hsub : (rivals (line' queue) id x).map Prod.fst ++ l ⊆
      (rivals (line queue) id x).map Prod.fst ++ arrivals queue x c := by
    intro b hb
    rw [List.mem_append] at hb ⊢
    rcases hb with hb | hb
    · obtain ⟨e, he, rfl⟩ := List.mem_map.mp hb
      obtain ⟨he, hne, hle⟩ := mem_rivals.mp he
      rcases h.entered queue e x he hle with hold | hnew
      · exact .inl (List.mem_map_of_mem (mem_rivals.mpr ⟨hold, hne, hle⟩))
      · exact .inr hnew
    · obtain ⟨⟨y, hle, hy⟩, -⟩ := hserved b hb
      refine .inl (List.mem_map.mpr ⟨(b, y), mem_rivals.mpr ⟨hy, ?_, hle⟩, rfl⟩)
      exact fun he => hout (he ▸ hb)
  have hle := (List.subperm_of_subset hdisjoint hsub).length_le
  simpa only [List.length_append, List.length_map, hlen] using hle

/-- The first of a line in order that does not contain a message come before it. -/
theorem served_of_take {line line' : Line} (hsorted : line.Pairwise fun a b => a.2 ≤ b.2)
    (hnodup : (line.map Prod.fst).Nodup) {n : ℕ} {id : String} {x : Number}
    (hid : (id, x) ∈ line) (hout : id ∉ (line.take n).map Prod.fst)
    (hgone : ∀ b ∈ (line.take n).map Prod.fst, ∀ y, (b, y) ∉ line') :
    ∃ l : List String, l.Nodup ∧ l.length = n ∧ id ∉ l ∧
      ∀ b ∈ l, (∃ y, y ≤ x ∧ (b, y) ∈ line) ∧ ∀ y, (b, y) ∉ line' := by
  have hdrop : (id, x) ∈ line.drop n := by
    rw [← List.take_append_drop n line, List.mem_append] at hid
    exact hid.resolve_left fun h => hout (List.mem_map_of_mem h)
  have hlen : (line.take n).length = n := by
    have hlt := List.length_pos_of_mem hdrop
    rw [List.length_drop] at hlt
    rw [List.length_take]
    omega
  refine ⟨(line.take n).map Prod.fst, hnodup.sublist ((List.take_sublist n line).map _), ?_, hout,
    fun b hb => ⟨?_, hgone b hb⟩⟩
  · rw [List.length_map, hlen]
  · obtain ⟨e, he, rfl⟩ := List.mem_map.mp hb
    rw [← List.take_append_drop n line, List.pairwise_append] at hsorted
    exact ⟨e.2, hsorted.2.2 e he _ hdrop, List.mem_of_mem_take he⟩

theorem requested_ne_zero {queue : String} {c : Call} (h : requested queue c ≠ 0) :
    ∃ clock n d l, c = (.pullMessages clock queue n none none d, .ids l) ∧
      requested queue c = n.toInt.toNat := by
  unfold requested at h ⊢
  split at h
  · rename_i clock q n d l
    split_ifs at h with hq
    · subst hq
      exact ⟨clock, n, d, l, rfl, if_pos rfl⟩
    · exact absurd rfl h
  · exact absurd rfl h

/-- Any call but a pull without bounds serves nobody in turn. -/
theorem served_nothing {line line' : Line} {queue id : String} {x : Number} {c : Call}
    (h : requested queue c = 0) :
    ∃ l : List String, l.Nodup ∧ l.length = requested queue c ∧ id ∉ l ∧
      ∀ b ∈ l, (∃ y, y ≤ x ∧ (b, y) ∈ line) ∧ ∀ y, (b, y) ∉ line' :=
  ⟨[], List.nodup_nil, h.symm, by simp, by simp⟩

section Runs

variable {σ : Type} {M : Machine σ Op Result} {line : σ → String → Line} {I : σ → Prop}
  {ok : Op → Prop}

/-- As long as a message is neither handed out nor removed, no more messages of its queue are
asked for without bounds than its rivals at the start and the later arrivals. -/
theorem requested_le (hnodup : ∀ s queue, I s → ((line s queue).map Prod.fst).Nodup)
    (hstep : ∀ s op res t, M s op res t → ok op → I s →
      I t ∧ Advances (line s) (line t) (op, res))
    {s t : σ} {tr : List Call} (hrun : Run M s tr t) (hok : ∀ c ∈ tr, ok c.1) (hI : I s)
    {queue id : String} {x : Number} (hid : (id, x) ∈ line s queue)
    (hwaits : ∀ c ∈ tr, ¬ (Pulled queue id c ∨ Removed queue id c)) :
    (tr.map (requested queue)).sum ≤
      (rivals (line s queue) id x).length +
        (tr.map fun c => (arrivals queue x c).length).sum := by
  have hpaid : ∀ s op res t, M s op res t →
      ok op ∧ ¬ (Pulled queue id (op, res) ∨ Removed queue id (op, res)) →
      I s ∧ (id, x) ∈ line s queue → (I t ∧ (id, x) ∈ line t queue) ∧
        (rivals (line t queue) id x).length + requested queue (op, res) ≤
          (rivals (line s queue) id x).length + (arrivals queue x (op, res)).length := by
    rintro s op res t hs ⟨hop, hwait⟩ ⟨hIs, hmem⟩
    obtain ⟨hIt, hadv⟩ := hstep s op res t hs hop hIs
    rw [not_or] at hwait
    exact ⟨⟨hIt, hadv.kept queue _ hmem hwait.1 hwait.2⟩,
      hadv.rivals_le (hnodup t queue hIt) hmem hwait.1⟩
  have hend := hrun.potential (I := fun s => I s ∧ (id, x) ∈ line s queue)
    (fun c => ok c.1 ∧ ¬ (Pulled queue id c ∨ Removed queue id c))
    (fun s => (rivals (line s queue) id x).length) (requested queue)
    (fun c => (arrivals queue x c).length) hpaid (fun c hc => ⟨hok c hc, hwaits c hc⟩) ⟨hI, hid⟩
  exact (Nat.le_add_left _ _).trans hend.2

end Runs

/-! ## The Redis cache -/

section Redis

open RedisCache

variable {cache : RedisCache} {s t : Redis} {P P' : Places}

def redisLine (cache : RedisCache) (s : Redis) (queue : String) : Line :=
  (s.zset (cache.key queue .active)).entries.map fun e => (e.member, e.score)

theorem mem_redisLine {queue : String} {e : String × Number} :
    e ∈ redisLine cache s queue ↔ (s.zset (cache.key queue .active)).score e.1 = some e.2 := by
  rw [SortedSet.score_eq_some]
  simp only [redisLine, List.mem_map]
  constructor
  · rintro ⟨a, ha, rfl⟩
    exact ha
  · intro h
    exact ⟨_, h, rfl⟩

theorem nodup_redisLine (s : Redis) (queue : String) :
    ((redisLine cache s queue).map Prod.fst).Nodup := by
  rw [redisLine, List.map_map]
  exact (s.zset _).nodup

theorem mem_redisLine_iff (hs : cache.Represents s P) {queue : String} {e : String × Number} :
    e ∈ redisLine cache s queue ↔ P queue e.1 = .active e.2 := by
  rw [mem_redisLine, hs]
  constructor
  · exact Place.eq_active
  · intro h
    rw [h]
    rfl

theorem sorted_redisLine (s : Redis) (queue : String) :
    (redisLine cache s queue).Pairwise fun a b => a.2 ≤ b.2 := by
  refine List.pairwise_map.mpr ((s.zset _).sorted.imp fun {a b} hab => ?_)
  rcases hab with hlt | ⟨heq, -⟩
  · exact hlt.le
  · exact heq.le

theorem replace_other {q queue id : String} {l : List String} {f : String → Place} {p : Place}
    (hp : P queue id = p) (h : queue = q → id ∈ l → P q id ≠ p) :
    P.replace q l f queue id = p := by
  rw [Places.replace, if_neg, hp]
  rintro ⟨rfl, hid⟩
  exact h rfl hid hp

theorem moves_kept {op : Op} {res : Result} (h : Moves P op res P') {queue id : String}
    {x : Number} (hp : P queue id = .active x) (hpulled : ¬ Pulled queue id (op, res))
    (hremoved : ¬ Removed queue id (op, res)) : P' queue id = .active x := by
  cases h with
  | rejected | notReleased | notLocked => exact hp
  | inserted _ hins | insertedPart _ _ hins => exact (hins.kept (by simp [hp])).trans hp
  | pulled => exact replace_other hp fun hq hid => absurd ⟨hq.symm, hid⟩ hpulled
  | removed => exact replace_other hp fun hq hid => absurd ⟨hq.symm, hid⟩ hremoved
  | released _ hproc | lost _ _ hproc | locked _ hproc | lockedUnscored _ _ hproc =>
    refine replace_other hp fun _ hid => ?_
    rw [List.mem_singleton.mp hid, hproc]
    simp
  | unlocked _ hl =>
    refine replace_other hp fun _ hid => ?_
    obtain ⟨u, kept, hlocked, -⟩ := hl id hid
    simp [hlocked]
  | timedOut _ hl =>
    refine replace_other hp fun _ hid => ?_
    obtain ⟨d, hproc, -⟩ := hl id hid
    simp [hproc]

/-- Who has a new place was moved. -/
theorem replace_cases {q queue id : String} {l : List String} {f : String → Place} {p : Place}
    (h : P.replace q l f queue id = p) : P queue id = p ∨ queue = q ∧ id ∈ l ∧ f id = p := by
  rw [Places.replace] at h
  split_ifs at h with hin
  · exact .inr ⟨hin.1, hin.2, h⟩
  · exact .inl h

theorem inserts_entered {queue q id : String} {messages : List Message} {l : List String}
    (hins : Inserts P P' q messages l) {x y : Number} (hp : P' queue id = .active y)
    (hle : y ≤ x) (res : Result) :
    P queue id = .active y ∨ id ∈ arrivals queue x (.insert q messages, res) := by
  by_cases hl : queue = q ∧ id ∈ l
  · obtain ⟨rfl, hid⟩ := hl
    obtain ⟨-, m, hm, rfl, z, hz, hnew⟩ := hins.new id hid
    cases hnew.symm.trans hp
    refine .inr ?_
    rw [arrivals, if_pos rfl]
    exact List.mem_map_of_mem (List.mem_filter.mpr ⟨hm, by simpa [hz] using hle⟩)
  · rw [hins.old queue id fun hq hid => hl ⟨hq, hid⟩] at hp
    exact .inl hp

theorem moves_entered {op : Op} {res : Result} (h : Moves P op res P') {queue id : String}
    {x y : Number} (hp : P' queue id = .active y) (hle : y ≤ x) :
    P queue id = .active y ∨ id ∈ arrivals queue x (op, res) := by
  cases h with
  | rejected | notReleased | notLocked => exact .inl hp
  | inserted _ hins | insertedPart _ _ hins => exact inserts_entered hins hp hle _
  | pulled | removed | lost | locked | lockedUnscored =>
    rcases replace_cases hp with hold | ⟨-, -, hnew⟩
    · exact .inl hold
    · simp at hnew
  | @released message d z _ _ hz =>
    rcases replace_cases hp with hold | ⟨hq, hid, hnew⟩
    · exact .inl hold
    · cases hnew
      refine .inr ?_
      rw [arrivals, if_pos ⟨hq.symm, by simpa [hz] using hle⟩]
      exact hid
  | unlocked =>
    rcases replace_cases hp with hold | ⟨-, hid, -⟩
    · exact .inl hold
    · exact .inr hid
  | timedOut =>
    rcases replace_cases hp with hold | ⟨hq, hid, -⟩
    · exact .inl hold
    · refine .inr ?_
      rw [arrivals, if_pos hq.symm]
      exact hid

/-- A pull without bounds takes the first of the line. -/
theorem pull_takes_first {queue : String} (hq : hasHashTag queue = false) {n : Int64}
    (hlo : 1 ≤ n.toInt) (hhi : n.toInt ≤ 1000) (hs : cache.Represents s P) (clock : Clock)
    (d : Int64) :
    (cache.step s (.pullMessages clock queue n none none d)).1 =
      .ids (((redisLine cache s queue).take n.toInt.toNat).map Prod.fst) := by
  obtain ⟨u, hrun, -⟩ : ∃ u, exec (cache.pullMessages clock queue n none none d) s =
      (.ok (Redis.limit n.toInt ((s.zset (cache.key queue .active)).rangeByScore .negInf .posInf)),
        u) ∧ _ := pullMessages_moves hs hq hlo hhi none none rfl
  rw [step_ok rfl hrun]
  have hall : (s.zset (cache.key queue .active)).rangeByScore .negInf .posInf =
      (redisLine cache s queue).map Prod.fst := by
    simp [SortedSet.rangeByScore, redisLine]
  rw [hall, Redis.limit, if_neg (by omega), List.map_take]

theorem redis_advances {op : Op} {res : Result} (hs : cache.Represents s P) (hc : Clean P)
    (hamount : op.AmountOk) (hstep : cache.machine s op res t) :
    ∃ P', (cache.Represents t P' ∧ Clean P') ∧
      Advances (redisLine cache s) (redisLine cache t) (op, res) := by
  obtain ⟨P', ht, -, hmoves⟩ := machine_moves hstep hs hamount
  refine ⟨P', ⟨ht, hmoves.clean hc⟩, ⟨?_, ?_, ?_⟩⟩
  · intro queue e he hpulled hremoved
    rw [mem_redisLine_iff hs] at he
    exact (mem_redisLine_iff ht).mpr (moves_kept hmoves he hpulled hremoved)
  · intro queue e x he hle
    rw [mem_redisLine_iff ht] at he
    rw [mem_redisLine_iff hs]
    exact moves_entered hmoves he hle
  · intro queue id x hid hpulled
    by_cases hreq : requested queue (op, res) = 0
    · exact served_nothing hreq
    obtain ⟨clock, n, d, l, hcall, hn⟩ := requested_ne_zero hreq
    cases hcall
    have hactive := (mem_redisLine_iff hs).mp hid
    have hq : hasHashTag queue = false := by
      cases hb : hasHashTag queue with
      | false => rfl
      | true => simp [hc queue id hb] at hactive
    have hfirst := pull_takes_first hq hamount.1 hamount.2 hs clock d
    rw [show cache.step s (.pullMessages clock queue n none none d) = (.ids l, t) from hstep]
      at hfirst
    obtain rfl : l = _ := Result.ids.inj hfirst
    rw [hn]
    refine served_of_take (sorted_redisLine s queue) (nodup_redisLine s queue) hid
      (fun hmem => hpulled ⟨rfl, hmem⟩) fun b hb y hy => ?_
    rw [mem_redisLine_iff ht] at hy
    cases hmoves with
    | pulled _ _ _ =>
      rw [Places.replace, if_pos ⟨rfl, hb⟩] at hy
      simp at hy

end Redis

/-! ## The memory cache -/

section Memory

open MemoryCache

variable {l : EntryList} {e data : MemoryMessageEntry} {c d : MemoryCache} {S : Spots}

theorem mem_removeEntry {id : String} :
    e ∈ (l.removeEntry id).entries ↔ e ∈ l.entries ∧ e.id ≠ id := by
  simp [EntryList.entries_removeEntry]

theorem mem_insertEntry :
    e ∈ (l.insertEntry data).entries ↔ e = data ∨ e ∈ l.entries ∧ e.id ≠ data.id := by
  rw [EntryList.insertEntry, List.mem_orderedInsert, mem_removeEntry]

theorem mem_of_mem_foldl {es : List MemoryMessageEntry}
    (h : e ∈ (es.foldl EntryList.insertEntry l).entries) : e ∈ es ∨ e ∈ l.entries := by
  induction es generalizing l with
  | nil => exact .inr h
  | cons a es ih =>
    rcases ih h with hes | hl
    · exact .inl (List.mem_cons_of_mem a hes)
    · rcases mem_insertEntry.mp hl with rfl | ⟨hl, -⟩
      · exact .inl List.mem_cons_self
      · exact .inr hl

theorem mem_foldl_of_old {es : List MemoryMessageEntry} (h : e ∈ l.entries)
    (hnew : e.id ∉ es.map MemoryMessageEntry.id) :
    e ∈ (es.foldl EntryList.insertEntry l).entries := by
  induction es generalizing l with
  | nil => exact h
  | cons a es ih =>
    rw [List.map_cons, List.mem_cons, not_or] at hnew
    exact ih (mem_insertEntry.mpr (.inr ⟨h, hnew.1⟩)) hnew.2

theorem mem_foldl_of_new {es : List MemoryMessageEntry} (h : e ∈ es)
    (hnodup : (es.map MemoryMessageEntry.id).Nodup) :
    e ∈ (es.foldl EntryList.insertEntry l).entries := by
  induction es generalizing l with
  | nil => simp at h
  | cons a es ih =>
    obtain ⟨hfresh, hnodup⟩ := List.nodup_cons.mp hnodup
    rcases List.mem_cons.mp h with rfl | h
    · rw [List.foldl_cons]
      exact mem_foldl_of_old (mem_insertEntry.mpr (.inl rfl)) hfresh
    · exact ih h hnodup

/-- What a call does to the entries of the active lists. -/
structure Enters (c d : MemoryCache) (call : Call) : Prop where
  kept : ∀ queue, ∀ e ∈ (c.pool .active queue).entries, ¬ Pulled queue e.id call →
    ¬ Removed queue e.id call → e ∈ (d.pool .active queue).entries
  entered : ∀ queue x, ∀ e ∈ (d.pool .active queue).entries, e.score ≤ .num x →
    e ∈ (c.pool .active queue).entries ∨ e.id ∈ arrivals queue x call

theorem enters_same {call : Call} (h : ∀ queue, d.pool .active queue = c.pool .active queue) :
    Enters c d call := by
  refine ⟨fun queue e he _ _ => ?_, fun queue x e he _ => .inl ?_⟩
  · rwa [h]
  · rwa [h] at he

/-- A message that another list holds comes into the active list. -/
theorem enters_move (hc : Represents c S) {source : MemoryPool} {q : String}
    (hsource : source ≠ .active) (hid : data.id ∈ (c.pool source q).ids) {call : Call}
    (harrives : ∀ x, data.score ≤ .num x → data.id ∈ arrivals q x call) :
    Enters c (c.move source .active q data) call := by
  have hpool : (c.move source .active q data).pool .active q =
      (c.pool .active q).insertEntry data := by
    simp [MemoryCache.move, hsource.symm]
  have hother : ∀ queue, queue ≠ q →
      (c.move source .active q data).pool .active queue = c.pool .active queue := by
    intro queue hne
    simp [MemoryCache.move, hne]
  refine ⟨fun queue e he _ _ => ?_, fun queue x e he hle => ?_⟩
  · by_cases hq : queue = q
    · subst hq
      rw [hpool, mem_insertEntry]
      refine .inr ⟨he, fun heq => hsource (hc.unique hid ?_)⟩
      exact heq ▸ List.mem_map_of_mem he
    · rwa [hother queue hq]
  · by_cases hq : queue = q
    · subst hq
      rw [hpool, mem_insertEntry] at he
      rcases he with rfl | ⟨he, -⟩
      · exact .inr (harrives x hle)
      · exact .inl he
    · rw [hother queue hq] at he
      exact .inl he

theorem enters_makeAvailable (hc : Represents c S) (message : Message) :
    Enters c (c.makeAvailable message).2
      (.makeAvailable message, (c.makeAvailable message).1) := by
  rw [makeAvailable]
  split_ifs with hq hin
  · exact enters_same fun _ => rfl
  · refine enters_move hc (by simp) (EntryList.contains_iff.mp hin) fun x hle => ?_
    rw [arrivals, if_pos ⟨rfl, hle⟩]
    exact List.mem_singleton_self _
  · exact enters_same fun _ => rfl

theorem enters_lockMessage (c : MemoryCache) (clock : Clock) (message : Message)
    (lockType : LockType) :
    Enters c (c.lockMessage clock message lockType).2
      (.lockMessage clock message lockType, (c.lockMessage clock message lockType).1) := by
  refine enters_same fun queue => ?_
  rw [lockMessage]
  split_ifs <;> simp [MemoryCache.move]

theorem enters_timeoutMessages (hc : Represents c S) (clock : Clock) (q : String) :
    Enters c (c.timeoutMessages clock q).2
      (.timeoutMessages clock q, (c.timeoutMessages clock q).1) := by
  simp only [timeoutMessages]
  split
  · exact enters_same fun _ => rfl
  · rename_i value hfind
    have hid := find_mem_ids hfind
    refine enters_move hc (by simp) (by exact hid) fun x _ => ?_
    rw [arrivals, if_pos rfl]
    exact List.mem_singleton_self _

theorem enters_insert (hc : Represents c S) (q : String) (messages : List Message) :
    Enters c (c.insert q messages).2 (.insert q messages, (c.insert q messages).1) := by
  simp only [MemoryCache.insert]
  split_ifs
  · exact enters_same fun _ => rfl
  set insertions := messages.filter fun message => !c.isPresentOnAnyPool q message.id with hins
  have hfold : ∀ l : EntryList, insertions.foldl (fun l message => l.insertEntry
      (createEntry message)) l = (insertions.map createEntry).foldl EntryList.insertEntry l :=
    fun _ => List.foldl_map.symm
  have hids : (insertions.map createEntry).map MemoryMessageEntry.id =
      insertions.map Message.id := by
    rw [List.map_map]
    rfl
  refine ⟨fun queue e he _ _ => ?_, fun queue x e he hle => ?_⟩
  · by_cases hq : queue = q
    · subst hq
      simp only [pool_setPool, and_self, if_true, hfold]
      refine mem_foldl_of_old he fun hmem => ?_
      rw [hids] at hmem
      obtain ⟨m, hm, hid⟩ := List.mem_map.mp hmem
      have habsent := (List.mem_filter.mp hm).2
      have hspot : S queue e.id = some .active := (hc _ _ _).mp (List.mem_map_of_mem he)
      rw [hid, (isPresentOnAnyPool_iff hc).mpr (by simp [hspot])] at habsent
      simp at habsent
    · simpa [hq] using he
  · by_cases hq : queue = q
    · subst hq
      simp only [pool_setPool, and_self, if_true, hfold] at he
      rcases mem_of_mem_foldl he with hnew | hold
      · obtain ⟨m, hm, rfl⟩ := List.mem_map.mp hnew
        refine .inr ?_
        rw [arrivals, if_pos rfl]
        exact List.mem_map_of_mem (List.mem_filter.mpr
          ⟨List.mem_of_mem_filter hm, decide_eq_true hle⟩)
      · exact .inl hold
    · exact .inl (by simpa [hq] using he)

/-- Messages that come one after the other, queue by queue, come together. -/
theorem Enters.trans {c₁ c₂ c₃ : MemoryCache} {clock : Clock} {q : String} {t : LockType}
    {l l' : List String} (h : Enters c₁ c₂ (.unlockMessages clock q t, .ids l))
    (h' : Enters c₂ c₃ (.unlockMessages clock q t, .ids l')) :
    Enters c₁ c₃ (.unlockMessages clock q t, .ids (l ++ l')) := by
  refine ⟨fun queue e he _ _ => ?_, fun queue x e he hle => ?_⟩
  · exact h'.kept queue e (h.kept queue e he not_false not_false) not_false not_false
  · rcases h'.entered queue x e he hle with hmid | hnew
    · rcases h.entered queue x e hmid hle with hold | hnew
      · exact .inl hold
      · exact .inr (List.mem_append_left _ hnew)
    · exact .inr (List.mem_append_right _ hnew)

theorem enters_unlockQueue {lockType : LockType} {nowMs : Int64} {defaultScore : Float64}
    {acc : List String × MemoryCache} (hc : Represents acc.2 S) (clock : Clock) (q r : String) :
    ∃ new S', (unlockQueue lockType nowMs defaultScore acc r).1 = acc.1 ++ new ∧
      Represents (unlockQueue lockType nowMs defaultScore acc r).2 S' ∧
      Enters acc.2 (unlockQueue lockType nowMs defaultScore acc r).2
        (.unlockMessages clock q lockType, .ids new) := by
  unfold unlockQueue
  split
  · exact ⟨[], S, by simp, hc, enters_same fun _ => rfl⟩
  · rename_i value hfind
    have hid := find_mem_ids hfind
    refine ⟨[value.id], _, rfl, hc.move (by exact hid) (by simp),
      enters_move hc (by simp) (by exact hid) fun x _ => List.mem_singleton_self _⟩

theorem enters_unlockQueues {lockType : LockType} {nowMs : Int64} {defaultScore : Float64}
    (order : List String) {acc : List String × MemoryCache} (hc : Represents acc.2 S)
    (clock : Clock) (q : String) :
    ∃ new, (order.foldl (unlockQueue lockType nowMs defaultScore) acc).1 = acc.1 ++ new ∧
      Enters acc.2 (order.foldl (unlockQueue lockType nowMs defaultScore) acc).2
        (.unlockMessages clock q lockType, .ids new) := by
  induction order generalizing acc S with
  | nil => exact ⟨[], by simp, enters_same fun _ => rfl⟩
  | cons r order ih =>
    obtain ⟨new, S', hnew, hs', henters⟩ :
        ∃ new S', (unlockQueue lockType nowMs defaultScore acc r).1 = acc.1 ++ new ∧ _ ∧ _ :=
      enters_unlockQueue hc clock q r
    obtain ⟨rest, hrest, henters'⟩ := ih hs'
    refine ⟨new ++ rest, ?_, henters.trans henters'⟩
    rw [List.foldl_cons, hrest, hnew, List.append_assoc]

theorem enters_unlockMessages (hc : Represents c S) (clock : Clock) (q : String)
    (lockType : LockType) (order : List String) :
    Enters c (c.unlockMessages clock lockType order).2
      (.unlockMessages clock q lockType, (c.unlockMessages clock lockType order).1) := by
  simp only [unlockMessages]
  set unlocked := order.foldl (unlockQueue lockType _ _) ([], c) with hunlocked
  obtain ⟨new, hnew, henters⟩ : ∃ new, unlocked.1 = [] ++ new ∧
      Enters c unlocked.2 (.unlockMessages clock q lockType, .ids new) :=
    enters_unlockQueues order hc clock q
  rw [hnew]
  exact henters

theorem mem_entries_removeFromSlice {ids : List String} :
    e ∈ (removeFromSlice l ids).2.entries ↔ e ∈ l.entries ∧ e.id ∉ ids := by
  suffices h : ∀ acc : ℕ × EntryList, e ∈ (ids.foldl (fun acc id =>
      (acc.1 + if acc.2.contains id then 1 else 0, acc.2.removeEntry id)) acc).2.entries ↔
      e ∈ acc.2.entries ∧ e.id ∉ ids from h (0, l)
  induction ids with
  | nil => simp
  | cons a ids ih =>
    intro acc
    rw [List.foldl_cons, ih, mem_removeEntry, List.mem_cons, not_or, and_assoc]

theorem enters_remove (c : MemoryCache) (q : String) (ids : List String) :
    Enters c (c.remove q ids).2 (.remove q ids, (c.remove q ids).1) := by
  have hpool : ∀ queue, (c.remove q ids).2.pool .active queue =
      if queue = q then (removeFromSlice (c.pool .active q) ids).2 else c.pool .active queue := by
    intro queue
    by_cases hq : queue = q <;> simp [remove, hq]
  refine ⟨fun queue e he _ hremoved => ?_, fun queue x e he _ => .inl ?_⟩
  · rw [hpool]
    split_ifs with hq
    · subst hq
      exact mem_entries_removeFromSlice.mpr ⟨he, fun hid => hremoved ⟨rfl, hid⟩⟩
    · exact he
  · rw [hpool] at he
    split_ifs at he with hq
    · subst hq
      exact (mem_entries_removeFromSlice.mp he).1
    · exact he

theorem enters_pullMessages (c : MemoryCache) (clock : Clock) (q : String) (n : Int64)
    (minScore maxScore : Option Float64) (dl : Int64) :
    Enters c (c.pullMessages clock q n minScore maxScore dl).2
      (.pullMessages clock q n minScore maxScore dl,
        (c.pullMessages clock q n minScore maxScore dl).1) := by
  obtain ⟨hres, ⟨rest, hrest, hact⟩, -, hframe⟩ :=
    pullMessages_spec c clock q n minScore maxScore dl
  rw [hres]
  have hnodup := (c.pool .active q).nodup
  rw [← List.take_append_drop n.toInt.toNat (c.pool .active q).entries, List.map_append,
    List.nodup_append] at hnodup
  obtain ⟨htake, -, hdisjoint⟩ := hnodup
  refine ⟨fun queue e he hpulled _ => ?_, fun queue x e he _ => .inl ?_⟩
  · by_cases hq : queue = q
    · subst hq
      rw [hact]
      rw [← List.take_append_drop n.toInt.toNat (c.pool .active queue).entries,
        List.mem_append] at he
      rcases he with he | he
      · -- it has been looked at and, since it is not handed out, set aside
        refine mem_foldl_of_new (List.mem_filter.mpr ⟨he, ?_⟩)
          (htake.sublist (List.filter_sublist.map _))
        by_contra hin
        refine hpulled ⟨rfl, List.mem_map_of_mem (List.mem_filter.mpr ⟨he, ?_⟩)⟩
        simpa using hin
      · refine mem_foldl_of_old (hrest ▸ he) fun hmem => ?_
        obtain ⟨a, ha, hid⟩ := List.mem_map.mp hmem
        exact hdisjoint a.id (List.mem_map_of_mem (List.mem_of_mem_filter ha)) e.id
          (List.mem_map_of_mem he) hid
    · rwa [hframe .active queue fun h => absurd h hq]
  · by_cases hq : queue = q
    · subst hq
      rw [hact] at he
      rcases mem_of_mem_foldl he with hback | hleft
      · exact List.mem_of_mem_take (List.mem_of_mem_filter hback)
      · exact List.mem_of_mem_drop (hrest ▸ hleft)
    · rwa [hframe .active queue fun h => absurd h hq] at he

/-- The number that a score is; the lists hold no NaN. -/
def value : Float64 → Number
  | .num x => x
  | .nan => .negInf

def memoryLine (c : MemoryCache) (queue : String) : Line :=
  (c.pool .active queue).entries.map fun e => (e.id, value e.score)

theorem num_value {x : Float64} (h : x ≠ .nan) : .num (value x) = x := by
  cases x with
  | nan => exact absurd rfl h
  | num x => rfl

theorem nodup_memoryLine (c : MemoryCache) (queue : String) :
    ((memoryLine c queue).map Prod.fst).Nodup := by
  rw [memoryLine, List.map_map]
  exact (c.pool .active queue).nodup

theorem sorted_memoryLine (hc : c.Ordered) (queue : String) :
    (memoryLine c queue).Pairwise fun a b => a.2 ≤ b.2 := by
  obtain ⟨hnumeric, hsorted⟩ := hc .active queue
  refine List.pairwise_map.mpr (hsorted.imp_of_mem fun {a b} ha hb hab => ?_)
  rw [← num_value (hnumeric a ha), ← num_value (hnumeric b hb)] at hab
  exact hab

/-- A pull without bounds leaves the rest of the line. -/
theorem pullMessages_unbounded (c : MemoryCache) (clock : Clock) (queue : String) (n dl : Int64) :
    (c.pullMessages clock queue n none none dl).1 =
        .ids (((memoryLine c queue).take n.toInt.toNat).map Prod.fst) ∧
      memoryLine (c.pullMessages clock queue n none none dl).2 queue =
        (memoryLine c queue).drop n.toInt.toNat := by
  obtain ⟨hres, ⟨rest, hrest, hact⟩, -, -⟩ := pullMessages_spec c clock queue n none none dl
  have hnone : ∀ e : MemoryMessageEntry, ¬ Excluded none none e := by
    intro e
    simp [Excluded]
  simp only [hnone, not_false_eq_true, decide_true, decide_false, List.filter_true,
    List.filter_false, List.foldl_nil] at hres hact
  refine ⟨?_, ?_⟩
  · rw [hres, memoryLine, ← List.map_take, List.map_map]
    rfl
  · rw [memoryLine, hact, hrest, memoryLine, List.map_drop]

theorem memory_enters {op : Op} {res : Result} (hc : Represents c S) (hstep : machine c op res d) :
    Enters c d (op, res) := by
  obtain ⟨out, hout⟩ : ∃ out, out = (res, d) := ⟨_, rfl⟩
  rw [machine, ← hout] at hstep
  obtain ⟨rfl, rfl⟩ := Prod.ext_iff.mp hout
  cases hstep with
  | insert q messages => exact enters_insert hc q messages
  | pullMessages clock q n lo hi dl => exact enters_pullMessages c clock q n lo hi dl
  | makeAvailable message => exact enters_makeAvailable hc message
  | lockMessage clock message t => exact enters_lockMessage c clock message t
  | unlockMessages clock q t order _ => exact enters_unlockMessages hc clock q t order
  | timeoutMessages clock q => exact enters_timeoutMessages hc clock q
  | remove q ids => exact enters_remove c q ids

theorem machine_pullMessages {clock : Clock} {queue : String} {n dl : Int64}
    {minScore maxScore : Option Float64} {res : Result}
    (h : machine c (.pullMessages clock queue n minScore maxScore dl) res d) :
    c.pullMessages clock queue n minScore maxScore dl = (res, d) := by
  obtain ⟨out, hout⟩ : ∃ out, out = (res, d) := ⟨_, rfl⟩
  rw [machine, ← hout] at h
  cases h
  exact hout

theorem memory_advances {op : Op} {res : Result} (hc : Represents c S) (hordered : c.Ordered)
    (hop : op.Supported) (hstep : machine c op res d) :
    Advances (memoryLine c) (memoryLine d) (op, res) := by
  have henters := memory_enters hc hstep
  have hordered' := hordered.step hstep hop
  refine ⟨fun queue e he hpulled hremoved => ?_, fun queue e x he hle => ?_,
    fun queue id x hid hpulled => ?_⟩
  · obtain ⟨a, ha, rfl⟩ := List.mem_map.mp he
    exact List.mem_map_of_mem (henters.kept queue a ha hpulled hremoved)
  · obtain ⟨a, ha, rfl⟩ := List.mem_map.mp he
    have hscore : a.score ≤ .num x := by
      rw [← num_value ((hordered' .active queue).numeric a ha)]
      exact hle
    exact (henters.entered queue x a ha hscore).imp_left List.mem_map_of_mem
  · by_cases hreq : requested queue (op, res) = 0
    · exact served_nothing hreq
    obtain ⟨clock, n, dl, l, hcall, hn⟩ := requested_ne_zero hreq
    cases hcall
    obtain ⟨hres, hline⟩ := pullMessages_unbounded c clock queue n dl
    rw [machine_pullMessages hstep] at hres hline
    cases hres
    rw [hn]
    have hnodup := nodup_memoryLine c queue
    refine served_of_take (sorted_memoryLine hordered queue) hnodup hid
      (fun hmem => hpulled ⟨rfl, hmem⟩) fun b hb y hy => ?_
    rw [hline] at hy
    rw [← List.take_append_drop n.toInt.toNat (memoryLine c queue), List.map_append,
      List.nodup_append] at hnodup
    exact hnodup.2.2 b hb b (List.mem_map_of_mem hy) rfl

end Memory

/-- In every run of either cache that starts in a reachable state, a message of the active pool is
handed out, or removed, before more messages of its queue have been asked for without bounds
than waited at the start with scores up to its own or have come since with such scores. -/
theorem delivered_in_turn (cache : RedisCache) (queue id : String) (x : Number) :
    (∀ {past tr : List Call} {s t : Redis}, Run cache.machine Redis.empty past s →
      Run cache.machine s tr t → (∀ c ∈ past ++ tr, c.1.AmountOk) →
      (id, x) ∈ redisLine cache s queue →
      (rivals (redisLine cache s queue) id x).length +
        (tr.map fun c => (arrivals queue x c).length).sum < (tr.map (requested queue)).sum →
      ∃ c ∈ tr, Pulled queue id c ∨ Removed queue id c) ∧
    ∀ {past tr : List Call} {c d : MemoryCache}, Run MemoryCache.machine MemoryCache.new past c →
      Run MemoryCache.machine c tr d → (∀ call ∈ past ++ tr, call.1.Supported) →
      (id, x) ∈ memoryLine c queue →
      (rivals (memoryLine c queue) id x).length +
        (tr.map fun call => (arrivals queue x call).length).sum < (tr.map (requested queue)).sum →
      ∃ call ∈ tr, Pulled queue id call ∨ Removed queue id call := by
  constructor
  · intro past tr s t hpast hrun hok hid hmany
    by_contra hnever
    have hreached := RedisCache.exists_represents hpast fun c hc =>
      hok c (List.mem_append_left _ hc)
    have hstep : ∀ s op res t, cache.machine s op res t → op.AmountOk →
        (∃ P, cache.Represents s P ∧ RedisCache.Clean P) →
        (∃ P, cache.Represents t P ∧ RedisCache.Clean P) ∧
          Advances (redisLine cache s) (redisLine cache t) (op, res) := by
      rintro s op res t hstep hamount ⟨P, hs, hc⟩
      obtain ⟨P', ht, hadv⟩ := redis_advances hs hc hamount hstep
      exact ⟨⟨P', ht⟩, hadv⟩
    have hle := requested_le (fun s queue _ => nodup_redisLine s queue) hstep hrun
      (fun c hc => hok c (List.mem_append_right _ hc)) hreached hid
      fun c hc h => hnever ⟨c, hc, h⟩
    exact absurd hmany (Nat.not_lt.mpr hle)
  · intro past tr c d hpast hrun hok hid hmany
    by_contra hnever
    have hstep : ∀ c op res d, MemoryCache.machine c op res d → op.Supported →
        (∃ S, MemoryCache.Represents c S) ∧ c.Ordered →
        ((∃ S, MemoryCache.Represents d S) ∧ d.Ordered) ∧
          Advances (memoryLine c) (memoryLine d) (op, res) := by
      rintro c op res d hstep hop ⟨⟨S, hs⟩, hordered⟩
      obtain ⟨A', ⟨S', hs', -⟩, -⟩ := MemoryCache.refines hstep trivial ⟨S, hs, rfl⟩
      exact ⟨⟨⟨S', hs'⟩, hordered.step hstep hop⟩, memory_advances hs hordered hop hstep⟩
    have hreached := hpast.invariant (fun c op res d h hop hI => (hstep c op res d h hop hI).1)
      (fun call hc => hok call (List.mem_append_left _ hc))
      ⟨⟨_, MemoryCache.represents_new⟩, MemoryCache.ordered_new⟩
    have hle := requested_le (fun c queue _ => nodup_memoryLine c queue) hstep hrun
      (fun call hc => hok call (List.mem_append_right _ hc)) hreached hid
      fun call hc h => hnever ⟨call, hc, h⟩
    exact absurd hmany (Nat.not_lt.mpr hle)

/-- Three messages that wait in the order of their ids. -/
def threeWaiting : Op :=
  .insert "q" [{ id := "a", queue := "q", score := .ofInt 1 },
    { id := "b", queue := "q", score := .ofInt 2 }, { id := "c", queue := "q", score := .ofInt 3 }]

/-- The first one goes back to the end of the line. -/
def back : Message := { id := "a", queue := "q", score := .ofInt 9 }

def pullOne : Op := .pullMessages (fun _ => 0) "q" 1 none none 0

/-- Answer a call of the memory cache that visits no map. -/
def memoryStep (c : MemoryCache) : Op → Result × MemoryCache
  | .insert queue messages => c.insert queue messages
  | .pullMessages clock queue n lo hi dl => c.pullMessages clock queue n lo hi dl
  | .makeAvailable message => c.makeAvailable message
  | .lockMessage clock message t => c.lockMessage clock message t
  | .unlockMessages clock _ t => c.unlockMessages clock t []
  | .timeoutMessages clock queue => c.timeoutMessages clock queue
  | .remove queue ids => c.remove queue ids

def visits : Op → Bool
  | .unlockMessages .. => true
  | _ => false

theorem run_memoryStep (c : MemoryCache) {ops : List Op} (h : ∀ op ∈ ops, visits op = false) :
    Run MemoryCache.machine c (play memoryStep c ops).1 (play memoryStep c ops).2 := by
  have hstep : ∀ c op res d, ofStep memoryStep c op res d → visits op = false →
      MemoryCache.machine c op res d := by
    intro c op res d hstep hop
    rw [MemoryCache.machine, ← show memoryStep c op = (res, d) from hstep]
    cases op with
    | unlockMessages => simp [visits] at hop
    | insert queue messages => exact .insert queue messages
    | pullMessages clock queue n lo hi dl => exact .pullMessages clock queue n lo hi dl
    | makeAvailable message => exact .makeAvailable message
    | lockMessage clock message t => exact .lockMessage clock message t
    | timeoutMessages clock queue => exact .timeoutMessages clock queue
    | remove queue ids => exact .remove queue ids
  exact (run_play memoryStep c ops).mono hstep (forall_mem_play memoryStep c h)

theorem delivered_in_turn_third :
    (∃ c ∈ (play (RedisCache.mk "").step (play (RedisCache.mk "").step Redis.empty [threeWaiting]).2
        [pullOne, .makeAvailable back, pullOne, pullOne]).1,
      Pulled "q" "c" c ∨ Removed "q" "c" c) ∧
    ∃ call ∈ (play memoryStep (play memoryStep MemoryCache.new [threeWaiting]).2
        [pullOne, .makeAvailable back, pullOne, pullOne]).1,
      Pulled "q" "c" call ∨ Removed "q" "c" call := by
  constructor
  · refine (delivered_in_turn ⟨""⟩ "q" "c" (.ofInt 3)).1 (run_play _ _ [threeWaiting])
      (run_play _ _ _) ?_ ?_ ?_
    · decide +kernel
    · decide +kernel
    · decide +kernel
  · have hfirst : ∀ op ∈ [threeWaiting], op.Supported := by
      simp [threeWaiting, Op.Supported, Float64.ofInt_ne_nan]
    have hthen : ∀ op ∈ [pullOne, .makeAvailable back, pullOne, pullOne], op.Supported := by
      simp [pullOne, back, Op.Supported, Float64.ofInt_ne_nan]
    refine (delivered_in_turn ⟨""⟩ "q" "c" (.ofInt 3)).2
      (run_memoryStep _ (show ∀ op ∈ [threeWaiting], visits op = false by decide))
      (run_memoryStep _ (by decide)) ?_ ?_ ?_
    · rw [List.forall_mem_append]
      exact ⟨forall_mem_play memoryStep _ hfirst, forall_mem_play memoryStep _ hthen⟩
    · decide +kernel
    · decide +kernel

end Deckard.Turns
