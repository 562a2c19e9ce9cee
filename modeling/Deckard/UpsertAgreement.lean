import Deckard.QueryAgreement

/-!
# The two storages after the same insertions

What a storage keeps of the messages inserted under one key is a fold over them. MongoDB
keeps, of most fields, the last value that was given; the memory storage takes these fields
from the last message. Both are compared in what `Find` reads back.
-/
namespace Deckard

open Binary64

/-- The fields that a client gives a message. -/
structure Content where
  description : String
  metadata : Option (List (String × String))
  payload : Option (List (String × String))
  stringPayload : String
  expiryDate : Time
  timeless : Bool
  score : Float64
  deriving DecidableEq

def Message.content (message : Message) : Content where
  description := message.description
  metadata := message.metadata
  payload := message.payload
  stringPayload := message.stringPayload
  expiryDate := message.expiryDate
  timeless := message.timeless
  score := message.score

/-- A non-empty queue and id without a colon. -/
def Key.Valid (k : Key) : Prop :=
  k.1 ≠ "" ∧ k.2 ≠ "" ∧ ':' ∉ k.1.toList ∧ ':' ∉ k.2.toList

instance (k : Key) : Decidable k.Valid :=
  inferInstanceAs (Decidable (k.1 ≠ "" ∧ k.2 ≠ "" ∧ ':' ∉ k.1.toList ∧ ':' ∉ k.2.toList))

theorem Key.Valid.checks {k : Key} (h : k.Valid) : k.1 ≠ "" ∧ k.2 ≠ "" := ⟨h.1, h.2.1⟩

/-- The arguments of one `Insert` and the times that the memory storage, at each message,
and MongoDB read. -/
structure Batch where
  messages : List Message
  clock : ℕ → Time
  now : Time

/-- The messages of some batches that go to a key, in the order of their insertion. -/
def inserted (k : Key) (batches : List Batch) : List Message :=
  (batches.flatMap Batch.messages).filter fun m => m.key = k

/-! ## Folds over the messages of a key -/

/-- What a storage keeps of some messages, given how it merges one. -/
def kept (merge : Option Content → Message → Content) (c : Option Content) (h : List Message) :
    Option Content :=
  h.foldl (fun c m => some (merge c m)) c

theorem kept_append (merge : Option Content → Message → Content) (c : Option Content)
    (h h' : List Message) : kept merge c (h ++ h') = kept merge (kept merge c h) h' :=
  List.foldl_append

theorem kept_eq_none {merge : Option Content → Message → Content} {h : List Message} :
    kept merge none h = none ↔ h = [] := by
  cases h using List.reverseRecOn with
  | nil => exact iff_of_true rfl rfl
  | append_singleton h m =>
    rw [kept_append]
    exact iff_of_false (fun hnone => by cases hnone) (by simp)

/-- If each insertion merges the message into the content of its key, a list of them merges
those of the key. -/
theorem kept_foldl {σ α : Type} {merge : Option Content → Message → Content} {k : Key}
    {view : σ → Option Content} {step : σ → α → σ} {message : α → Message} {l : List α}
    (hstep : ∀ x ∈ l, ∀ s, view (step s x) =
      if (message x).key = k then some (merge (view s) (message x)) else view s) (s : σ) :
    view (l.foldl step s) = kept merge (view s) ((l.map message).filter fun m => m.key = k) := by
  induction l generalizing s with
  | nil => rfl
  | cons x l ih =>
    rw [List.foldl_cons, ih fun y hy => hstep y (List.mem_cons_of_mem _ hy),
      hstep x List.mem_cons_self, List.map_cons, List.filter_cons]
    by_cases hk : (message x).key = k
    · simp only [hk, decide_true, if_true]
      rfl
    · simp only [hk, decide_false, if_false, Bool.false_eq_true]

theorem kept_batches {σ : Type} {merge : Option Content → Message → Content} {k : Key}
    {view : σ → Option Content} {insert : σ → Batch → σ} {batches : List Batch}
    (hinsert : ∀ b ∈ batches, ∀ s, view (insert s b) =
      kept merge (view s) (b.messages.filter fun m => m.key = k)) (s : σ) :
    view (batches.foldl insert s) = kept merge (view s) (inserted k batches) := by
  induction batches generalizing s with
  | nil => rfl
  | cons b batches ih =>
    rw [List.foldl_cons, ih fun b' hb' => hinsert b' (List.mem_cons_of_mem _ hb'),
      hinsert b List.mem_cons_self, ← kept_append, inserted, inserted, List.flatMap_cons,
      List.filter_append]

/-- The last value other than `empty`. -/
def lastGiven {α : Type} [DecidableEq α] (empty : α) (f : Message → α) (h : List Message) : α :=
  h.foldl (fun v m => if f m ≠ empty then f m else v) empty

/-- A message that leaves the field empty follows only such messages. -/
def Restates {α : Type} (empty : α) (f : Message → α) (h : List Message) : Prop :=
  ∀ last, h.getLast? = some last → f last = empty → ∀ m ∈ h, f m = empty

section LastGiven

variable {α : Type} [DecidableEq α] {empty : α} {f : Message → α} {h : List Message}

theorem lastGiven_concat (m : Message) :
    lastGiven empty f (h ++ [m]) = if f m ≠ empty then f m else lastGiven empty f h :=
  List.foldl_append

theorem lastGiven_eq_empty : lastGiven empty f h = empty ↔ ∀ m ∈ h, f m = empty := by
  induction h using List.reverseRecOn with
  | nil => simp [lastGiven]
  | append_singleton h m ih =>
    rw [lastGiven_concat]
    by_cases hm : f m = empty
    · rw [if_neg (not_not.mpr hm), ih]
      simp [or_imp, forall_and, hm]
    · rw [if_pos hm]
      simp [hm]

/-- The last message has the value that was given last. -/
theorem restates_iff {last : Message} (hlast : h.getLast? = some last) :
    Restates empty f h ↔ f last = lastGiven empty f h := by
  obtain ⟨front, rfl⟩ := List.getLast?_eq_some_iff.mp hlast
  have hrestates : Restates empty f (front ++ [last]) ↔
      (f last = empty → lastGiven empty f (front ++ [last]) = empty) := by
    rw [lastGiven_eq_empty]
    constructor
    · intro h
      exact h last hlast
    · intro h last' hlast'
      cases hlast.symm.trans hlast'
      exact h
  rw [hrestates, lastGiven_concat]
  by_cases hm : f last = empty
  · rw [if_neg (not_not.mpr hm), hm]
    exact ⟨fun h => (h rfl).symm, fun h _ => h.symm⟩
  · rw [if_pos hm]
    exact ⟨fun _ => rfl, fun _ h => absurd h hm⟩

end LastGiven

/-- A later message replaces all but the flag and the score. -/
def MemoryStorage.merge (c : Option Content) (m : Message) : Content :=
  { m.content with
    timeless := (c.map Content.timeless).getD m.timeless
    score := (c.map Content.score).getD m.score }

/-- A later message replaces what it gives; the flag is never written. -/
def MongoStorage.merge (c : Option Content) (m : Message) : Content where
  description :=
    if m.description ≠ "" then m.description else (c.map Content.description).getD ""
  metadata := if m.metadata ≠ none then m.metadata else (c.map Content.metadata).getD none
  payload := if m.payload ≠ none then m.payload else (c.map Content.payload).getD none
  stringPayload :=
    if m.stringPayload ≠ "" then m.stringPayload else (c.map Content.stringPayload).getD ""
  expiryDate := MongoStorage.dateTime m.expiryDate
  timeless := (c.map Content.timeless).getD false
  score := (c.map Content.score).getD m.score

/-- Induction over the messages of a key, of which the first and the last are known. -/
@[elab_as_elim] theorem first_last_induction {motive : List Message → Message → Message → Prop}
    {h : List Message} {first last : Message} (hfirst : h.head? = some first)
    (hlast : h.getLast? = some last) (hone : ∀ m, motive [m] m m)
    (hmore : ∀ h first last m, motive h first last → motive (h ++ [m]) first m) :
    motive h first last := by
  induction h using List.reverseRecOn generalizing last with
  | nil => cases hfirst
  | append_singleton h m ih =>
    rw [List.getLast?_concat] at hlast
    cases hlast
    cases hl : h.getLast? with
    | none =>
      rw [List.getLast?_eq_none_iff] at hl
      subst hl
      cases hfirst
      exact hone _
    | some last' =>
      have hfirst' : h.head? = some first := by
        obtain ⟨front, rfl⟩ := List.getLast?_eq_some_iff.mp hl
        cases front <;> exact hfirst
      exact hmore h first last' m (ih hfirst' hl)

theorem MemoryStorage.kept_eq {h : List Message} {first last : Message}
    (hfirst : h.head? = some first) (hlast : h.getLast? = some last) :
    kept MemoryStorage.merge none h =
      some { last.content with timeless := first.timeless, score := first.score } := by
  refine first_last_induction hfirst hlast ?_ ?_
  · intro m
    rfl
  · intro h first last m ih
    rw [kept_append, ih]
    rfl

theorem MongoStorage.kept_eq {h : List Message} {first last : Message}
    (hfirst : h.head? = some first) (hlast : h.getLast? = some last) :
    kept MongoStorage.merge none h =
      some
        { description := lastGiven "" Message.description h
          metadata := lastGiven none Message.metadata h
          payload := lastGiven none Message.payload h
          stringPayload := lastGiven "" Message.stringPayload h
          expiryDate := MongoStorage.dateTime last.expiryDate
          timeless := false
          score := first.score } := by
  refine first_last_induction hfirst hlast ?_ ?_
  · intro m
    rfl
  · intro h first last m ih
    rw [kept_append, ih]
    simp only [lastGiven_concat]
    rfl

/-- How the contents `e` and `d` that the memory storage and MongoDB make of the messages of
a key compare. -/
structure Agree (h : List Message) (e d : Content) : Prop where
  description : Restates "" Message.description h ↔ e.description = d.description
  metadata : Restates none Message.metadata h ↔ e.metadata = d.metadata
  payload : Restates none Message.payload h ↔ e.payload = d.payload
  stringPayload : Restates "" Message.stringPayload h ↔ e.stringPayload = d.stringPayload
  expiryDate : MongoStorage.dateTime e.expiryDate = d.expiryDate
  score : e.score = d.score

theorem agree_kept {h : List Message} {e d : Content}
    (he : kept MemoryStorage.merge none h = some e)
    (hd : kept MongoStorage.merge none h = some d) : Agree h e d := by
  cases hlast : h.getLast? with
  | none =>
    rw [List.getLast?_eq_none_iff] at hlast
    subst hlast
    cases he
  | some last =>
    obtain ⟨first, hfirst⟩ : ∃ first, h.head? = some first := by
      obtain ⟨front, rfl⟩ := List.getLast?_eq_some_iff.mp hlast
      cases front <;> exact ⟨_, rfl⟩
    rw [MemoryStorage.kept_eq hfirst hlast] at he
    rw [MongoStorage.kept_eq hfirst hlast] at hd
    cases he
    cases hd
    constructor
    · exact restates_iff hlast
    · exact restates_iff hlast
    · exact restates_iff hlast
    · exact restates_iff hlast
    · rfl
    · rfl

/-! ## The storages -/

/-- Key of the memory storage. -/
def Key.text (k : Key) : String := k.1 ++ ":" ++ k.2

theorem Key.text_inj {k k' : Key} (hk : k.Valid) (hk' : k'.Valid) : k.text = k'.text ↔ k = k' := by
  constructor
  · intro h
    have hlist : k.1.toList ++ ':' :: k.2.toList = k'.1.toList ++ ':' :: k'.2.toList := by
      have htext := congrArg String.toList h
      simpa [Key.text] using htext
    have htake : ∀ l l' : List Char, ':' ∉ l →
        (l ++ ':' :: l').takeWhile (fun c => c ≠ ':') = l := by
      intro l l' hl
      rw [List.takeWhile_append_of_pos]
      · simp
      · intro c hc
        exact decide_eq_true fun hcolon => hl (hcolon ▸ hc)
    have hqueue : k.1.toList = k'.1.toList := by
      rw [← htake _ k.2.toList hk.2.2.1, hlist, htake _ _ hk'.2.2.1]
    rw [hqueue, List.append_right_inj, List.cons.injEq] at hlist
    exact Prod.ext (String.toList_injective hqueue) (String.toList_injective hlist.2)
  · intro h
    rw [h]

/-- The query by which a message is read back. -/
def byKey (k : Key) : FindOptions where
  internalFilter := some { queue := k.1, ids := some [k.2] }

namespace MemoryStorage

variable {ι : Type} [LinearOrder ι] {internalIds : InternalIds ι} {k : Key}

/-- Content under a key. -/
def contentAt (k : Key) (storage : MemoryStorage ι) : Option Content :=
  (storage.docs.get k.text).map fun d => d.value.content

theorem contentAt_insertOne {now : Time} {m : Message} (hm : m.key.Valid) (hk : k.Valid)
    (storage : MemoryStorage ι) :
    contentAt k (insertOne internalIds now storage m) =
      if m.key = k then some (merge (contentAt k storage) m) else contentAt k storage := by
  have hkey : k.text = getKey m ↔ m.key = k :=
    (Key.text_inj hk hm).trans eq_comm
  rw [contentAt, insertOne, Table.get_upsert]
  by_cases h : m.key = k
  · rw [if_pos (hkey.mpr h), if_pos h, contentAt, hkey.mpr h]
    cases storage.docs.get (getKey m) <;> rfl
  · rw [if_neg fun htext => h (hkey.mp htext), if_neg h]
    rfl

theorem insertFrom_cons {clock : ℕ → Time} {m : Message} (hm : m.queue ≠ "" ∧ m.id ≠ "")
    (messages : List Message) (i : ℕ) (n : ℕ × ℕ) (storage : MemoryStorage ι) :
    insertFrom internalIds clock i n (m :: messages) storage =
      insertFrom internalIds clock (i + 1) (n + counts storage m) messages
        (insertOne internalIds (clock i) storage m) := by
  rw [insertFrom, if_neg hm.1, if_neg hm.2]

theorem insertFrom_snd {clock : ℕ → Time} {messages : List Message}
    (hvalid : ∀ m ∈ messages, m.queue ≠ "" ∧ m.id ≠ "") (i : ℕ) (n : ℕ × ℕ)
    (storage : MemoryStorage ι) :
    (insertFrom internalIds clock i n messages storage).2 =
      (messages.zipIdx i).foldl (fun storage p => insertOne internalIds (clock p.2) storage p.1)
        storage := by
  induction messages generalizing i n storage with
  | nil => rfl
  | cons m messages ih =>
    obtain ⟨hm, hrest⟩ := List.forall_mem_cons.mp hvalid
    rw [insertFrom_cons hm, ih hrest]
    rfl

/-- The storage after some insertions. -/
def insertBatches (internalIds : InternalIds ι) (batches : List Batch) (storage : MemoryStorage ι) :
    MemoryStorage ι :=
  batches.foldl (fun storage b => (insert internalIds b.clock b.messages storage).2) storage

theorem contentAt_insertBatches {batches : List Batch}
    (hvalid : ∀ b ∈ batches, ∀ m ∈ b.messages, m.key.Valid) (hk : k.Valid)
    (storage : MemoryStorage ι) :
    contentAt k (insertBatches internalIds batches storage) =
      kept merge (contentAt k storage) (inserted k batches) := by
  apply kept_batches
  intro b hb storage
  have hstep : ∀ p ∈ b.messages.zipIdx, ∀ storage : MemoryStorage ι,
      contentAt k (insertOne internalIds (b.clock p.2) storage p.1) =
        if p.1.key = k then some (merge (contentAt k storage) p.1) else contentAt k storage := by
    intro p hp storage
    exact contentAt_insertOne (hvalid b hb p.1 (List.fst_mem_of_mem_zipIdx hp)) hk storage
  rw [insert, insertFrom_snd fun m hm => (hvalid b hb m hm).checks, kept_foldl hstep,
    List.zipIdx_map_fst]

/-- The messages of a storage have keys that do not collide. -/
def Colonless (storage : MemoryStorage ι) : Prop := ∀ d ∈ storage.docs.rows, d.value.key.Valid

theorem Colonless.insertOne {storage : MemoryStorage ι} (h : storage.Colonless) {now : Time}
    {m : Message} (hm : m.key.Valid) : (insertOne internalIds now storage m).Colonless := by
  intro d hd
  rcases Table.mem_upsert hd with hd | ⟨d', hd', rfl⟩ | rfl
  · exact h d hd
  · exact h d' hd'
  · exact hm

theorem Colonless.insertBatches {storage : MemoryStorage ι} (h : storage.Colonless)
    {batches : List Batch} (hvalid : ∀ b ∈ batches, ∀ m ∈ b.messages, m.key.Valid) :
    (insertBatches internalIds batches storage).Colonless := by
  unfold MemoryStorage.insertBatches
  refine List.foldlRecOn batches _ h fun storage h b hb => ?_
  rw [insert, insertFrom_snd fun m hm => (hvalid b hb m hm).checks]
  refine List.foldlRecOn _ _ h fun storage h p hp => ?_
  exact h.insertOne (hvalid b hb p.1 (List.fst_mem_of_mem_zipIdx hp))

theorem Colonless.key_eq {storage : MemoryStorage ι} (h : storage.Colonless) (hk : k.Valid)
    {d : Stored ι} (hd : d ∈ storage.docs.rows) : d.key = k.text ↔ d.value.key = k := by
  rw [storage.keyed d hd]
  exact Key.text_inj (h d hd) hk

/-- A message is read back by its fields, unless it has expired. -/
theorem find_byPair (hk : k.1 ≠ "") (clock : Stored ι → Time × Time) (visit : List (Stored ι)) :
    find internalIds (byKey k) clock visit =
      .ok ((visit.filter fun d => d.value.key = k).filter
        fun d => !isExpired (clock d) d.value) := by
  have hfilter : MongoStorage.getMongoMessage internalIds (byKey k) =
      .ok (MongoStorage.selects { queue := k.1, ids := some [k.2] } none none) := rfl
  have hselects : ∀ d : Stored ι,
      MongoStorage.selects { queue := k.1, ids := some [k.2] } none none (document d) =
        decide (d.value.key = k) := by
    intro d
    rw [Bool.eq_iff_iff, decide_eq_true_eq]
    simp [MongoStorage.selects, hk, document, Prod.ext_iff, and_comm]
  have hdates : ∀ d ∈ visit.filter (fun d => !hides (byKey k) (clock d) d.value),
      Apart (byKey k) d.value := by
    intro d _ t ht
    cases ht
  rw [find, matching_eq hfilter hdates, List.filter_filter, List.filter_filter]
  change Except.ok (List.filter _ visit) = _
  congr 1
  apply List.filter_congr
  intro d _
  rw [hselects d, Bool.and_comm]
  rfl

/-- Reading a key back, a message that has expired is not seen. -/
theorem find_byKey {storage : MemoryStorage ι} (h : storage.Colonless) (hk : k.Valid)
    {visit : List (Stored ι)} (hvisit : visit.Perm storage.docs.rows)
    (clock : Stored ι → Time × Time) :
    find internalIds (byKey k) clock visit =
      .ok ((storage.docs.get k.text).toList.filter fun d => !isExpired (clock d) d.value) := by
  have hkeys : visit.filter (fun d => d.value.key = k) = visit.filter fun d => d.key = k.text := by
    apply List.filter_congr
    intro d hd
    exact decide_eq_decide.mpr (h.key_eq hk (hvisit.subset hd)).symm
  rw [find_byPair hk.1, hkeys, filter_eq_of_perm hvisit storage.docs.nodup]
  rfl

end MemoryStorage

namespace MongoStorage

variable {ι : Type} [LinearOrder ι] {internalIds : InternalIds ι} {k : Key}

/-- Content under a key. -/
def contentAt (k : Key) (docs : Documents ι) : Option Content :=
  (docs.get k).map fun d => d.value.content

theorem content_setFields (m document : Message) :
    (setFields m document).content = merge (some document.content) m := by
  have horElse : ∀ x y : Option (List (String × String)),
      (x <|> y) = if x ≠ none then x else y := by
    intro x y
    cases x <;> rfl
  simp only [setFields, Message.content, merge, horElse]
  rfl

theorem contentAt_insertOne (now : Time) (m : Message) (docs : Documents ι) :
    contentAt k (insertOne internalIds now docs m) =
      if m.key = k then some (merge (contentAt k docs) m) else contentAt k docs := by
  rw [contentAt, insertOne, Table.get_upsert]
  by_cases h : m.key = k
  · rw [if_pos h.symm, if_pos h, contentAt, h]
    cases docs.get k with
    | none => exact congrArg some (content_setFields m (setOnInsert now m))
    | some d => exact congrArg some (content_setFields m d.value)
  · rw [if_neg fun h' => h h'.symm, if_neg h]
    rfl

/-- The collection after some insertions. -/
def insertBatches (internalIds : InternalIds ι) (batches : List Batch) (docs : Documents ι) :
    Documents ι :=
  batches.foldl (fun docs b => (insert internalIds b.now b.messages docs).2) docs

theorem contentAt_insertBatches {batches : List Batch}
    (hvalid : ∀ b ∈ batches, ∀ m ∈ b.messages, m.key.Valid) (docs : Documents ι) :
    contentAt k (insertBatches internalIds batches docs) =
      kept merge (contentAt k docs) (inserted k batches) := by
  apply kept_batches
  intro b hb docs
  have hdocs : (insert internalIds b.now b.messages docs).2 =
      b.messages.foldl (insertOne internalIds b.now) docs := by
    by_cases hnil : b.messages = []
    · rw [hnil]
      rfl
    · have hchecks : ∀ m ∈ b.messages, m.queue ≠ "" ∧ m.id ≠ "" := fun m hm =>
        (hvalid b hb m hm).checks
      obtain ⟨n, hinsert⟩ : ∃ n, insert internalIds b.now b.messages docs =
          (.ok n, b.messages.foldl (insertOne internalIds b.now) docs) := insert_ok hchecks hnil
      rw [hinsert]
  have hstep : ∀ m ∈ b.messages, ∀ docs : Documents ι,
      contentAt k (insertOne internalIds b.now docs m) =
        if m.key = k then some (merge (contentAt k docs) m) else contentAt k docs :=
    fun m _ docs => contentAt_insertOne b.now m docs
  rw [hdocs, kept_foldl hstep, List.map_id']

theorem find_byKey (hk : k.Valid) (docs : Documents ι) :
    find internalIds (byKey k) docs = .ok (docs.get k).toList := by
  have hselects : ∀ d ∈ docs.rows,
      selects { queue := k.1, ids := some [k.2] } none none d = decide (d.key = k) := by
    intro d _
    rw [Bool.eq_iff_iff, decide_eq_true_eq]
    simp [selects, hk.1, Prod.ext_iff, and_comm]
  rw [← Table.filter_key, ← List.filter_congr hselects]
  rfl

end MongoStorage

/-- Reading back a key of which both storages have merged the same messages. -/
theorem find_byKey_agree {ι κ : Type} [LinearOrder ι] [LinearOrder κ]
    {memoryIds : InternalIds ι} {mongoIds : InternalIds κ} {storage : MemoryStorage ι}
    {docs : MongoStorage.Documents κ} {k : Key} {h : List Message}
    (hcolonless : storage.Colonless) (hk : k.Valid)
    (hmemory : storage.contentAt k = kept MemoryStorage.merge none h)
    (hmongo : MongoStorage.contentAt k docs = kept MongoStorage.merge none h)
    {visit : List (MemoryStorage.Stored ι)} (hvisit : visit.Perm storage.docs.rows)
    (clock : MemoryStorage.Stored ι → Time × Time) :
    (h = [] ∧ MemoryStorage.find memoryIds (byKey k) clock visit = .ok [] ∧
      MongoStorage.find mongoIds (byKey k) docs = .ok []) ∨
    ∃ e ∈ visit, ∃ d, e.value.key = k ∧
      MemoryStorage.find memoryIds (byKey k) clock visit =
        .ok (if MemoryStorage.isExpired (clock e) e.value then [] else [e]) ∧
      MongoStorage.find mongoIds (byKey k) docs = .ok [d] ∧
      Agree h e.value.content d.value.content := by
  rw [MemoryStorage.find_byKey hcolonless hk hvisit, MongoStorage.find_byKey hk]
  cases he : storage.docs.get k.text with
  | none =>
    rw [MemoryStorage.contentAt, he] at hmemory
    have hnil : h = [] := kept_eq_none.mp hmemory.symm
    rw [hnil] at hmongo
    rw [Option.map_eq_none_iff.mp hmongo]
    exact .inl ⟨hnil, rfl, rfl⟩
  | some e =>
    obtain ⟨hmem, hkey⟩ := Table.get_eq_some.mp he
    rw [MemoryStorage.contentAt, he] at hmemory
    cases hd : docs.get k with
    | none =>
      rw [MongoStorage.contentAt, hd] at hmongo
      rw [kept_eq_none.mp hmongo.symm] at hmemory
      cases hmemory
    | some d =>
      rw [MongoStorage.contentAt, hd] at hmongo
      refine .inr ⟨e, hvisit.mem_iff.mpr hmem, d, (hcolonless.key_eq hk hmem).mp hkey, ?_, rfl,
        agree_kept hmemory.symm hmongo.symm⟩
      cases hexpired : MemoryStorage.isExpired (clock e) e.value with
      | true => simp [hexpired]
      | false => simp [hexpired]

/-! ## Results -/

/-- After the same insertions, a key is read back from both storages or from neither, except
that the memory storage does not return a message that has expired. Scores are the same, and
expiry dates to the millisecond; the other fields are the same exactly if the last message
restates them. -/
theorem upserts_agree {ι κ : Type} [LinearOrder ι] [LinearOrder κ]
    (memoryIds : InternalIds ι) (mongoIds : InternalIds κ) (internalCounter : ι) (last : κ)
    {batches : List Batch} (hvalid : ∀ b ∈ batches, ∀ m ∈ b.messages, m.key.Valid)
    {k : Key} (hk : k.Valid) {visit : List (MemoryStorage.Stored ι)}
    (hvisit : visit.Perm (MemoryStorage.insertBatches memoryIds batches
      (MemoryStorage.newMemoryStorage internalCounter)).docs.rows)
    (clock : MemoryStorage.Stored ι → Time × Time) :
    (inserted k batches = [] ∧ MemoryStorage.find memoryIds (byKey k) clock visit = .ok [] ∧
      MongoStorage.find mongoIds (byKey k)
        (MongoStorage.insertBatches mongoIds batches (Table.empty last)) = .ok []) ∨
    ∃ e ∈ visit, ∃ d, e.value.key = k ∧
      MemoryStorage.find memoryIds (byKey k) clock visit =
        .ok (if MemoryStorage.isExpired (clock e) e.value then [] else [e]) ∧
      MongoStorage.find mongoIds (byKey k)
        (MongoStorage.insertBatches mongoIds batches (Table.empty last)) = .ok [d] ∧
      Agree (inserted k batches) e.value.content d.value.content := by
  have hempty : (MemoryStorage.newMemoryStorage internalCounter).Colonless := by
    intro d hd
    cases hd
  exact find_byKey_agree (hempty.insertBatches hvalid) hk
    (MemoryStorage.contentAt_insertBatches hvalid hk _)
    (MongoStorage.contentAt_insertBatches hvalid _) hvisit clock

/-- An insertion of one message that is valid for an hour. -/
def oneMessage (now : Time) (description : String) (timeless : Bool) : Batch where
  messages := [
    { id := "a"
      queue := "q"
      description := description
      timeless := timeless
      expiryDate := now + 3600000000000 }]
  clock := fun _ => now
  now := now

/-- A message is added and later given a new description. -/
def renamed : List Batch :=
  [oneMessage 1000000000 "text" false, oneMessage 2000000000 "new text" false]

theorem upserts_agree_renamed :
    ∃ e d, MemoryStorage.find InternalIds.counter (byKey ("q", "a"))
          (fun _ => (3000000000, 3000000000))
          (MemoryStorage.insertBatches InternalIds.counter renamed
            (MemoryStorage.newMemoryStorage 0)).docs.rows = .ok [e] ∧
      MongoStorage.find InternalIds.counter (byKey ("q", "a"))
        (MongoStorage.insertBatches InternalIds.counter renamed (Table.empty 0)) = .ok [d] ∧
      e.value.description = d.value.description := by
  have hvalid : ∀ b ∈ renamed, ∀ m ∈ b.messages, m.key.Valid := by decide +kernel
  have hexpired : ∀ d ∈ (MemoryStorage.insertBatches InternalIds.counter renamed
      (MemoryStorage.newMemoryStorage 0)).docs.rows,
      MemoryStorage.isExpired (3000000000, 3000000000) d.value = false := by decide +kernel
  have hgiven : ∀ m ∈ inserted ("q", "a") renamed, m.description ≠ "" := by decide +kernel
  rcases upserts_agree InternalIds.counter InternalIds.counter 0 0 hvalid
    (show Key.Valid ("q", "a") by decide +kernel) (.refl _)
    fun _ => (3000000000, 3000000000) with ⟨hnil, -⟩ | ⟨e, he, d, -, hmemory, hmongo, hagree⟩
  · exact absurd hnil (by decide +kernel)
  · rw [hexpired e he] at hmemory
    refine ⟨e, d, hmemory, hmongo, hagree.description.mp fun last hlast hlast' => ?_⟩
    exact absurd hlast' (hgiven last (List.mem_of_getLast? hlast))

/-- A message that never expires is added, and added again without its description. -/
def shortened : List Batch :=
  [oneMessage 1000000000 "text" true, oneMessage 2000000000 "" true]

/-- Only the memory storage keeps the flag, and only MongoDB the description. -/
theorem upserts_disagree :
    (∀ b ∈ shortened, ∀ m ∈ b.messages, m.key.Valid) ∧
    (MemoryStorage.find InternalIds.counter (byKey ("q", "a"))
        (fun _ => (3000000000, 3000000000))
        (MemoryStorage.insertBatches InternalIds.counter shortened
          (MemoryStorage.newMemoryStorage 0)).docs.rows).toOption.map
        (List.map fun d => (d.value.timeless, d.value.description)) = some [(true, "")] ∧
    (MongoStorage.find InternalIds.counter (byKey ("q", "a"))
        (MongoStorage.insertBatches InternalIds.counter shortened (Table.empty 0))).toOption.map
        (List.map fun d => (d.value.timeless, d.value.description)) = some [(false, "text")] := by
  refine ⟨by decide +kernel, by decide +kernel, by decide +kernel⟩

end Deckard
