import Deckard.MemoryExpiry
import Deckard.QueryAgreement

/-!
# Time to live

An addition turns the minutes that a message lives into nanoseconds, in the 64 bits of a duration.
Up to 153722867 minutes, 292 years, the product fits; with one more it is negative. The result
says that this is the bound up to which the dates that the storages keep are ahead of the addition
and in the order of the minutes.
-/
namespace Deckard

open Program Prog

theorem Dtime.toInt_minutes (n : Int64) :
    (minutes n).toInt = (60000000000 * n.toInt).bmod (2 ^ 64) :=
  Int64.toInt_mul _ _

/-- The message has a time to live of up to a number of minutes. -/
structure AddMessage.LivesUpTo (bound : ℤ) (m : AddMessage) : Prop where
  timed : m.timeless = false
  pos : 0 < m.ttlMinutes.toInt
  le : m.ttlMinutes.toInt ≤ bound

theorem AddMessage.LivesUpTo.mono {bound bound' : ℤ} {m : AddMessage} (h : m.LivesUpTo bound)
    (hle : bound ≤ bound') : m.LivesUpTo bound' := ⟨h.timed, h.pos, h.le.trans hle⟩

/-- What is added to the clock if the message is not timeless. -/
theorem expiryDate_timed (zone : Zone) (now : ℤ) {m : AddMessage} (h : m.timeless = false) :
    Service.expiryDate zone now m = now + (60000000000 * m.ttlMinutes.toInt).bmod (2 ^ 64) := by
  rw [Service.expiryDate, h, if_neg Bool.false_ne_true]
  split_ifs with hzero
  · rw [Dtime.toInt_minutes]
  · rw [not_not.mp hzero]
    exact (add_zero now).symm

/-- Up to 292 years' worth of minutes nothing wraps around. -/
theorem expiryDate_of_le (zone : Zone) (now : ℤ) {m : AddMessage} (h : m.LivesUpTo 153722867) :
    Service.expiryDate zone now m = now + 60000000000 * m.ttlMinutes.toInt := by
  have hpos := h.pos
  have hle := h.le
  rw [expiryDate_timed zone now h.timed, Int.bmod_eq_of_le_mul_two (by omega) (by omega)]

/-- The dates are ahead by a minute or more. -/
theorem AddMessage.LivesUpTo.minute_le {bound : ℤ} {m : AddMessage} (h : m.LivesUpTo bound) :
    60000000000 ≤ 60000000000 * m.ttlMinutes.toInt := by
  have hpos := h.pos
  omega

theorem expiryDate_mono (now : ℤ) {a b : AddMessage} (h : a.ttlMinutes ≤ b.ttlMinutes) :
    now + 60000000000 * a.ttlMinutes.toInt ≤ now + 60000000000 * b.ttlMinutes.toInt := by
  have hle := Int64.le_iff_toInt_le.mp h
  omega

/-- With one minute more the product is negative. -/
theorem expiryDate_wrapped (zone : Zone) (now : ℤ) {m : AddMessage} (h : m.timeless = false)
    (httl : m.ttlMinutes = 153722868) :
    Service.expiryDate zone now m = now - 9223371993709551616 := by
  rw [expiryDate_timed zone now h, httl]
  exact congrArg (now + ·) (by decide)

/-! ## What an addition leaves in a storage -/

/-- The request is accepted, and `a`, added at `now`, is the last of its messages with a key. -/
structure AddRequest.Leaves {κ : Type} (key : Key → κ) (r : AddRequest) (a : AddMessage)
    (now : Time) : Prop where
  accepted : ∀ m ∈ r.messages, m.queue ≠ "" ∧ m.id ≠ ""
  last : ∃ front back, r.messages = front ++ a :: back ∧ r.clock (2 * front.length) = now ∧
    ∀ m ∈ back, key (m.queue, m.id) ≠ key (a.queue, a.id)

/-- The last write to a key stays. -/
theorem foldl_last {σ α β κ : Type} [DecidableEq κ] (key : α → κ) (view : σ → κ → Option β)
    {step : σ → α → σ} (written : α → β)
    (hstep : ∀ s a k, view (step s a) k = if k = key a then some (written a) else view s k)
    (front back : List α) {a : α} (hback : ∀ b ∈ back, key b ≠ key a) (s : σ) :
    view ((front ++ a :: back).foldl step s) (key a) = some (written a) := by
  have hkeeps : ∀ s, view (back.foldl step s) (key a) = view s (key a) := by
    induction back with
    | nil => exact fun _ => rfl
    | cons b back ih =>
      obtain ⟨hb, hback⟩ := List.forall_mem_cons.mp hback
      intro s
      rw [List.foldl_cons, ih hback, hstep, if_neg hb.symm]
  rw [List.foldl_append, List.foldl_cons, hkeeps, hstep, if_pos rfl]

theorem addedMessages_append (zone : Zone) (clock : Clock) (front back : List AddMessage) :
    Service.addedMessages zone clock (front ++ back) =
      Service.addedMessages zone clock front ++
        Service.addedMessages zone (fun i => clock (i + 2 * front.length)) back := by
  induction front generalizing clock with
  | nil => rfl
  | cons m front ih =>
    rw [List.cons_append, Service.addedMessages, ih, Service.addedMessages, List.cons_append]
    simp only [List.length_cons, Nat.mul_add, Nat.mul_one, ← Nat.add_assoc]

theorem key_of_mem_addedMessages {zone : Zone} {clock : Clock} {request : List AddMessage}
    {v : Message} (h : v ∈ Service.addedMessages zone clock request) :
    ∃ m ∈ request, v.key = (m.queue, m.id) := by
  induction request generalizing clock with
  | nil => cases h
  | cons m request ih =>
    rcases List.mem_cons.mp h with rfl | h
    · exact ⟨m, List.mem_cons_self, rfl⟩
    · obtain ⟨m', hm', hv⟩ := ih h
      exact ⟨m', List.mem_cons_of_mem _ hm', hv⟩

variable {ι ρ κ : Type} [LinearOrder ι] {internalIds : InternalIds ι} {r : AddRequest}
  {a : AddMessage} {now : Time} {key : Key → κ}

/-- The messages that the storage gets end with that of `a`, as far as its key is concerned. -/
theorem AddRequest.Leaves.split (h : r.Leaves key a now) :
    (∀ m ∈ Service.addedMessages r.zone r.clock r.messages, m.queue ≠ "" ∧ m.id ≠ "") ∧
    ∃ front m back, Service.addedMessages r.zone r.clock r.messages = front ++ m :: back ∧
      m.key = (a.queue, a.id) ∧ m.expiryDate = Service.expiryDate r.zone now a ∧
      ∀ m' ∈ back, key m'.key ≠ key m.key := by
  obtain ⟨front, back, hmessages, hclock, hback⟩ := h.last
  constructor
  · intro v hv
    obtain ⟨m, hm, hkey⟩ := key_of_mem_addedMessages hv
    obtain ⟨hqueue, hid⟩ : v.queue = m.queue ∧ v.id = m.id := Prod.mk.inj hkey
    rw [hqueue, hid]
    exact h.accepted m hm
  · refine ⟨_, _, _, by rw [hmessages, addedMessages_append]; rfl, rfl, ?_, ?_⟩
    · rw [← hclock]
      simp [Service.addedMessage]
    · intro m' hm'
      obtain ⟨m, hm, hkey⟩ := key_of_mem_addedMessages hm'
      rw [hkey]
      exact hback m hm

namespace MemoryStorage

/-- The addition leaves a document with the expiry date of the message. -/
theorem get_addAll (internalIds : InternalIds ι) (visit : Visit ι) (cache : CacheCalls ρ)
    (w : MemoryStorage ι × ρ) (h : r.Leaves Key.text a now) :
    ∃ d, (addAll (calls internalIds visit) cache w [r]).1.docs.get
        (Key.text (a.queue, a.id)) = some d ∧
      d.value.expiryDate = Service.expiryDate r.zone now a := by
  obtain ⟨hvalid, front, m, back, hmessages, hkey, hdate, hback⟩ := h.split
  have hinsert : (addAll (calls internalIds visit) cache w [r]).1 =
      (front ++ m :: back).foldl (insertOne internalIds (r.clock (2 * r.messages.length))) w.1 := by
    rw [addAll, List.foldl_cons, List.foldl_nil, run_add_storage, ← hmessages]
    change (insertFrom internalIds (fun _ => _) 0 (0, 0) _ w.1).2 = _
    rw [insertFrom_snd hvalid, ← List.foldl_map (f := Prod.fst) (g := insertOne internalIds _),
      List.zipIdx_map_fst]
  have hstep : ∀ (s : MemoryStorage ι) m k,
      ((insertOne internalIds (r.clock (2 * r.messages.length)) s m).docs.value k).map
          Message.expiryDate =
        if k = getKey m then some m.expiryDate else (s.docs.value k).map Message.expiryDate := by
    intro s m k
    change Option.map _ ((s.docs.upsert _ _ _ _ _).value k) = _
    rw [Table.value_upsert]
    split_ifs with hk
    · cases s.docs.value (getKey m) <;> rfl
    · rfl
  have hvalue := foldl_last getKey
    (fun (s : MemoryStorage ι) k => (s.docs.value k).map Message.expiryDate) Message.expiryDate
    hstep front back hback w.1
  rw [← hinsert, Table.value, Option.map_map] at hvalue
  obtain ⟨d, hd, hdate'⟩ := Option.map_eq_some_iff.mp hvalue
  have htext : Key.text (a.queue, a.id) = getKey m := by
    rw [← hkey]
    rfl
  exact ⟨d, htext ▸ hd, hdate'.trans hdate⟩

theorem ahead_iff (now : Time) (d : Stored ι) :
    now ≤ d.value.expiryDate ∧
        ¬ messageMatchesFilter internalIds (Queue.expired now) d = .ok true ↔
      now < d.value.expiryDate := by
  rw [matchesFilter_expired, Except.ok.injEq, decide_eq_true_eq, not_le]
  exact and_iff_right_of_imp le_of_lt

end MemoryStorage

namespace MongoStorage

theorem get_addAll (internalIds : InternalIds ι) (cache : CacheCalls ρ) (w : Documents ι × ρ)
    (h : r.Leaves id a now) :
    ∃ d, (addAll (calls internalIds) cache w [r]).1.get (a.queue, a.id) = some d ∧
      d.value.expiryDate = dateTime (Service.expiryDate r.zone now a) := by
  obtain ⟨hvalid, front, m, back, hmessages, hkey, hdate, hback⟩ := h.split
  have hinsert : (addAll (calls internalIds) cache w [r]).1 =
      (front ++ m :: back).foldl (insertOne internalIds (r.clock (2 * r.messages.length))) w.1 := by
    rw [addAll, List.foldl_cons, List.foldl_nil, run_add_storage, ← hmessages]
    change (insert internalIds _ _ w.1).2 = _
    obtain ⟨n, hn⟩ : ∃ n, insert internalIds (r.clock (2 * r.messages.length))
        (Service.addedMessages r.zone r.clock r.messages) w.1 = (.ok n, _) :=
      insert_ok hvalid (by simp [hmessages])
    exact congrArg Prod.snd hn
  have hstep : ∀ (docs : Documents ι) m k,
      ((insertOne internalIds (r.clock (2 * r.messages.length)) docs m).value k).map
          Message.expiryDate =
        if k = m.key then some (dateTime m.expiryDate)
        else (docs.value k).map Message.expiryDate := by
    intro docs m k
    rw [insertOne, Table.value_upsert]
    split_ifs with hk
    · cases docs.value m.key <;> rfl
    · rfl
  have hvalue := foldl_last Message.key
    (fun (docs : Documents ι) k => (docs.value k).map Message.expiryDate)
    (fun m => dateTime m.expiryDate) hstep front back hback w.1
  rw [← hinsert, Table.value, Option.map_map] at hvalue
  obtain ⟨d, hd, hdate'⟩ := Option.map_eq_some_iff.mp hvalue
  rw [hdate] at hdate'
  exact ⟨d, hkey ▸ hd, hdate'⟩

theorem selects_expired (t : Time) (d : Document ι) :
    (getMongoMessage internalIds (Queue.expired t)).map (fun filter => filter d) = .ok true ↔
      d.value.expiryDate ≤ dateTime t := by
  have hselects : (getMongoMessage internalIds (Queue.expired t)).map (fun filter => filter d) =
      .ok (selects { expiryDate := some t } none none d) := rfl
  rw [hselects, Except.ok.injEq]
  simp [selects]

/-- A date that is a minute ahead is ahead in the milliseconds that are kept of it. -/
theorem dateTime_ahead (now : ℤ) {life : ℤ} (h : 60000000000 ≤ life) :
    now ≤ dateTime (now + life) ∧ ¬ dateTime (now + life) ≤ dateTime now := by
  change now ≤ (now + life) / 1000000 * 1000000 ∧
    ¬ (now + life) / 1000000 * 1000000 ≤ now / 1000000 * 1000000
  omega

end MongoStorage

/-- Two documents left by additions of `a` and `b` at `now`: both expire later and are passed
over by the removal of what has expired at `now`, and they expire in the order of the minutes
that they live. -/
structure Forward {α : Type} (now : Time) (a b : AddMessage) (expiryDate : α → Time)
    (selected : α → Prop) (d e : α) : Prop where
  first : now ≤ expiryDate d ∧ ¬ selected d
  second : now ≤ expiryDate e ∧ ¬ selected e
  ordered : a.ttlMinutes ≤ b.ttlMinutes → expiryDate d ≤ expiryDate e

/-- Any two additions at `now` of messages that live up to `bound` minutes leave dates that go
forward. -/
def MemoryStorage.GoesForward (internalIds : InternalIds ι) (visit : Visit ι)
    (cache : CacheCalls ρ) (now : Time) (bound : ℤ) (w₁ w₂ : MemoryStorage ι × ρ) : Prop :=
  ∀ a b r₁ r₂, a.LivesUpTo bound → b.LivesUpTo bound → r₁.Leaves Key.text a now →
    r₂.Leaves Key.text b now →
    ∃ d e, (addAll (calls internalIds visit) cache w₁ [r₁]).1.docs.get
        (Key.text (a.queue, a.id)) = some d ∧
      (addAll (calls internalIds visit) cache w₂ [r₂]).1.docs.get
        (Key.text (b.queue, b.id)) = some e ∧
      Forward now a b (fun d => d.value.expiryDate)
        (fun d => messageMatchesFilter internalIds (Queue.expired now) d = .ok true) d e

def MongoStorage.GoesForward (internalIds : InternalIds ι) (cache : CacheCalls ρ) (now : Time)
    (bound : ℤ) (w₁ w₂ : Documents ι × ρ) : Prop :=
  ∀ a b r₁ r₂, a.LivesUpTo bound → b.LivesUpTo bound → r₁.Leaves id a now → r₂.Leaves id b now →
    ∃ d e, (addAll (calls internalIds) cache w₁ [r₁]).1.get (a.queue, a.id) = some d ∧
      (addAll (calls internalIds) cache w₂ [r₂]).1.get (b.queue, b.id) = some e ∧
      Forward now a b (fun d => d.value.expiryDate)
        (fun d => (getMongoMessage internalIds (Queue.expired now)).map
          (fun filter => filter d) = .ok true) d e

/-- A request at `now` for one message of a queue. -/
def adding (now : Time) (m : AddMessage) : AddRequest where
  zone := .utc
  clock := fun _ => now
  order := .listed
  messages := [m]

theorem leaves_adding (key : Key → κ) (now : Time) {m : AddMessage}
    (hm : m.queue ≠ "" ∧ m.id ≠ "") : (adding now m).Leaves key m now where
  accepted := by
    intro m' hm'
    rw [List.mem_singleton.mp hm']
    exact hm
  last := ⟨[], [], rfl, rfl, by simp⟩

/-- One minute more than the product has room for. -/
def tooLong : AddMessage := { id := "a", queue := "q", ttlMinutes := 153722868 }

theorem livesUpTo_tooLong {bound : ℤ} (h : ¬ bound ≤ 153722867) : tooLong.LivesUpTo bound :=
  ⟨rfl, by decide, Int.add_one_le_iff.mpr (not_le.mp h)⟩

theorem wrapped_not_ahead (now : ℤ) : ¬ now ≤ now - 9223371993709551616 := by omega

theorem MemoryStorage.goesForward_iff (internalIds : InternalIds ι) (visit : Visit ι)
    (cache : CacheCalls ρ) (now : Time) (bound : ℤ) (w₁ w₂ : MemoryStorage ι × ρ) :
    GoesForward internalIds visit cache now bound w₁ w₂ ↔ bound ≤ 153722867 := by
  constructor
  · intro h
    by_contra hbound
    have hleaves : (adding now tooLong).Leaves Key.text tooLong now :=
      leaves_adding _ now (by decide)
    obtain ⟨d, e, hd, -, hforward⟩ := h _ _ _ _ (livesUpTo_tooLong hbound)
      (livesUpTo_tooLong hbound) hleaves hleaves
    obtain ⟨d', hd', hdate⟩ := get_addAll internalIds visit cache w₁ hleaves
    obtain rfl : d = d' := Option.some.inj (hd.symm.trans hd')
    rw [expiryDate_wrapped _ now rfl rfl] at hdate
    exact wrapped_not_ahead now (hforward.first.1.trans_eq hdate)
  · intro hbound a b r₁ r₂ ha hb h₁ h₂
    obtain ⟨d, hd, hfirst⟩ := get_addAll internalIds visit cache w₁ h₁
    obtain ⟨e, he, hsecond⟩ := get_addAll internalIds visit cache w₂ h₂
    rw [expiryDate_of_le _ now (ha.mono hbound)] at hfirst
    rw [expiryDate_of_le _ now (hb.mono hbound)] at hsecond
    refine ⟨d, e, hd, he, ⟨(ahead_iff now d).mpr ?_, (ahead_iff now e).mpr ?_, fun hle => ?_⟩⟩
    · rw [hfirst]
      exact lt_add_of_pos_right now (lt_of_lt_of_le (by decide) ha.minute_le)
    · rw [hsecond]
      exact lt_add_of_pos_right now (lt_of_lt_of_le (by decide) hb.minute_le)
    · rw [hfirst, hsecond]
      exact expiryDate_mono now hle

theorem MongoStorage.goesForward_iff (internalIds : InternalIds ι) (cache : CacheCalls ρ)
    (now : Time) (bound : ℤ) (w₁ w₂ : Documents ι × ρ) :
    GoesForward internalIds cache now bound w₁ w₂ ↔ bound ≤ 153722867 := by
  constructor
  · intro h
    by_contra hbound
    have hleaves : (adding now tooLong).Leaves id tooLong now := leaves_adding _ now (by decide)
    obtain ⟨d, e, hd, -, hforward⟩ := h _ _ _ _ (livesUpTo_tooLong hbound)
      (livesUpTo_tooLong hbound) hleaves hleaves
    obtain ⟨d', hd', hdate⟩ := get_addAll internalIds cache w₁ hleaves
    obtain rfl : d = d' := Option.some.inj (hd.symm.trans hd')
    rw [expiryDate_wrapped _ now rfl rfl] at hdate
    have hkept : dateTime (now - 9223371993709551616) ≤ now - 9223371993709551616 :=
      Int.ediv_mul_le _ (by decide)
    exact wrapped_not_ahead now ((hforward.first.1.trans_eq hdate).trans hkept)
  · intro hbound a b r₁ r₂ ha hb h₁ h₂
    obtain ⟨d, hd, hfirst⟩ := get_addAll internalIds cache w₁ h₁
    obtain ⟨e, he, hsecond⟩ := get_addAll internalIds cache w₂ h₂
    rw [expiryDate_of_le _ now (ha.mono hbound)] at hfirst
    rw [expiryDate_of_le _ now (hb.mono hbound)] at hsecond
    refine ⟨d, e, hd, he, ⟨?_, ?_, fun hle => ?_⟩⟩
    · rw [selects_expired, hfirst]
      exact dateTime_ahead now ha.minute_le
    · rw [selects_expired, hsecond]
      exact dateTime_ahead now hb.minute_le
    · rw [hfirst, hsecond]
      exact dateTime_mono (expiryDate_mono now hle)

/-- Whatever the storages hold, additions of messages that are not timeless go forward for all
times to live up to a bound if and only if the bound is not above 153722867 minutes, beyond which
the nanoseconds do not fit into 64 bits. -/
theorem addAll_forward_iff (internalIds : InternalIds ι) (visit : MemoryStorage.Visit ι)
    (cache : CacheCalls ρ) (now : Time) (bound : ℤ) :
    (∀ w₁ w₂ : MemoryStorage ι × ρ,
      MemoryStorage.GoesForward internalIds visit cache now bound w₁ w₂ ↔ bound ≤ 153722867) ∧
    ∀ w₁ w₂ : MongoStorage.Documents ι × ρ,
      MongoStorage.GoesForward internalIds cache now bound w₁ w₂ ↔ bound ≤ 153722867 :=
  ⟨MemoryStorage.goesForward_iff internalIds visit cache now bound,
    MongoStorage.goesForward_iff internalIds cache now bound⟩

/-- What an empty memory storage keeps of a message added at `now`. -/
def keptOf (now : Time) (m : AddMessage) : Option (MemoryStorage.Stored ℕ) :=
  (addAll (MemoryStorage.calls InternalIds.counter (.at now)) (MemoryCache.calls fun _ _ => [])
    (MemoryStorage.newMemoryStorage 0, MemoryCache.new) [adding now m]).1.docs.get
      (Key.text (m.queue, m.id))

theorem addAll_forward_brief :
    ∃ d e, keptOf 0 { id := "a", queue := "q", ttlMinutes := 1 } = some d ∧
      keptOf 0 { id := "a", queue := "q", ttlMinutes := 153722867 } = some e ∧
      Forward 0 { id := "a", queue := "q", ttlMinutes := 1 }
        { id := "a", queue := "q", ttlMinutes := 153722867 } (fun d => d.value.expiryDate)
        (fun d => MemoryStorage.messageMatchesFilter InternalIds.counter (Queue.expired 0) d =
          .ok true) d e :=
  ((addAll_forward_iff InternalIds.counter (.at 0) (MemoryCache.calls fun _ _ => []) 0 153722867).1
    (MemoryStorage.newMemoryStorage 0, MemoryCache.new)
    (MemoryStorage.newMemoryStorage 0, MemoryCache.new)).mpr le_rfl _ _ (adding 0 _) (adding 0 _)
    ⟨rfl, by decide, by decide⟩ ⟨rfl, by decide, by decide⟩ (leaves_adding _ 0 (by decide))
    (leaves_adding _ 0 (by decide))

/-- With one minute more than 292 years a message expires before it is added, at the beginning
of 2024, and is selected for removal at once. -/
theorem long_ttl_selected :
    ∃ d, keptOf 1704067200000000000 { id := "a", queue := "q", ttlMinutes := 153722868 } =
        some d ∧
      d.value.expiryDate < 1704067200000000000 ∧
      MemoryStorage.messageMatchesFilter InternalIds.counter (Queue.expired 1704067200000000000) d =
        .ok true := by
  have hdate : (keptOf 1704067200000000000
      { id := "a", queue := "q", ttlMinutes := 153722868 }).map (fun d => d.value.expiryDate) =
        some (-7519304793709551616) := by decide +kernel
  obtain ⟨d, hd, hdate⟩ := Option.map_eq_some_iff.mp hdate
  refine ⟨d, hd, ?_, ?_⟩
  · rw [hdate]
    decide
  · rw [MemoryStorage.matchesFilter_expired, hdate]
    rfl

-- A timeless message that lives an hour from noon of 2000-02-29 expires after one that lives
-- thirteen hours: both dates are on 2100-03-01.
example :
    Service.expiryDate .utc 951825600000000000
        { id := "a", queue := "q", ttlMinutes := 780, timeless := true } <
      Service.expiryDate .utc 951825600000000000
        { id := "a", queue := "q", ttlMinutes := 60, timeless := true } := by
  decide +kernel

end Deckard
