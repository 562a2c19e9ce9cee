import Deckard.Audit
import Deckard.Runs
import Mathlib.Data.List.TakeWhile

/-!
# What the auditor delivers

In every run the batches handed to `send`, one after the other, are the beginning of what was
put into the channel. When the sender returns, what the channel held at its closing has not been
handed over.
-/
namespace Deckard.Audit

open Auditor Runs

variable {a b : Auditor} {e : Event} {s t : State} {l : Label} {tr : Trace}

/-! ## One step -/

/-- What comes of a call of `Store` that does not wait. -/
inductive Stores (a : Auditor) : Event → Auditor → Prop
  | ignored (henabled : a.enabled = false) : Stores a .none a
  | panicked (hclosed : a.entries.closed = true) : Stores a .panicked a
  | put {entry : Entry} {channel : Channel Entry} (henabled : a.enabled = true)
      (hsend : a.entries.send entry = .done channel) :
      Stores a (.put entry) { a with entries := channel }

theorem stores_of_store {now : Time} {entry : Entry} (h : a.store now entry = some (e, b)) :
    Stores a e b := by
  unfold store at h
  split_ifs at h with henabled
  · cases h
    exact .ignored henabled
  · cases hsend : a.entries.send (stamped now entry) with
    | panics =>
      rw [hsend] at h
      cases h
      exact .panicked (Channel.send_panics hsend)
    | waits =>
      rw [hsend] at h
      cases h
    | done channel =>
      rw [hsend] at h
      cases h
      exact .put (Bool.not_eq_false _ ▸ henabled) hsend

/-- What the choices of the sender do. -/
inductive Sends (a : Auditor) (done : Bool) : Choice → Event → Auditor → Prop
  | start (hsender : a.sender = .notStarted) :
      Sends a done .start .none
        { a with sender := if a.enabled then .looping [] else .returned }
  | taken {entries : List Entry} {entry : Entry} {channel : Channel Entry}
      (hsender : a.sender = .looping entries)
      (hreceive : a.entries.receive = some (entry, channel))
      (hsize : (entries ++ [entry]).length ≠ maxEntriesSize) :
      Sends a done .receive .none
        { a with entries := channel, sender := .looping (entries ++ [entry]) }
  | full {entries : List Entry} {entry : Entry} {channel : Channel Entry}
      (hsender : a.sender = .looping entries)
      (hreceive : a.entries.receive = some (entry, channel))
      (hsize : (entries ++ [entry]).length = maxEntriesSize) :
      Sends a done .receive (.handed (entries ++ [entry]))
        { a with entries := channel, sender := .looping [] }
  | idle {entries : List Entry} (hsender : a.sender = .looping entries) :
      Sends a done .timer .none a
  | timer {entries : List Entry} (hsender : a.sender = .looping entries) :
      Sends a done .timer (.handed entries) { a with sender := .looping [] }
  | done {entries : List Entry} (hsender : a.sender = .looping entries) (hdone : done = true) :
      Sends a done .done .none
        { a with entries := a.entries.close, sender := .closing entries }
  | last {entries : List Entry} (hsender : a.sender = .closing entries) :
      Sends a done .last (.handed entries) { a with sender := .returned }

theorem sends_of_received {done : Bool} {entries : List Entry}
    (hsender : a.sender = .looping entries) (h : a.received entries = some (e, b)) :
    Sends a done .receive e b := by
  unfold received at h
  cases hreceive : a.entries.receive with
  | none =>
    rw [hreceive] at h
    cases h
  | some r =>
    simp only [hreceive] at h
    split_ifs at h with hsize
    · cases h
      exact .full hsender hreceive hsize
    · cases h
      exact .taken hsender hreceive hsize

theorem sends_of_send {done : Bool} {choice : Choice} (h : a.send done choice = some (e, b)) :
    Sends a done choice e b := by
  cases choice with
  | start =>
    by_cases hsender : a.sender = .notStarted
    · rw [send, if_neg (not_not.mpr hsender)] at h
      cases h
      exact .start hsender
    · rw [send, if_pos hsender] at h
      cases h
  | receive =>
    cases hsender : a.sender with
    | looping entries =>
      rw [send, hsender] at h
      exact sends_of_received hsender h
    | _ =>
      rw [send, hsender] at h
      cases h
  | timer =>
    cases hsender : a.sender with
    | looping entries =>
      simp only [send, hsender] at h
      split_ifs at h
      · cases h
        exact .timer hsender
      · cases h
        exact .idle hsender
    | _ =>
      rw [send, hsender] at h
      cases h
  | done =>
    cases hsender : a.sender with
    | looping entries =>
      simp only [send, hsender] at h
      split_ifs at h with hdone
      cases h
      exact .done hsender hdone
    | _ =>
      rw [send, hsender] at h
      cases h
  | last =>
    cases hsender : a.sender with
    | closing entries =>
      rw [send, hsender] at h
      cases h
      exact .last hsender
    | _ =>
      rw [send, hsender] at h
      cases h

/-- What a step of the machine does. -/
inductive Steps (s : State) : Label → Event → State → Prop
  | store {now : Time} {entry : Entry} {e : Event} {b : Auditor} (h : Stores s.auditor e b) :
      Steps s (.store now entry) e { s with auditor := b }
  | send {choice : Choice} {e : Event} {b : Auditor} (h : Sends s.auditor s.cancelled choice e b) :
      Steps s (.send choice) e { s with auditor := b }
  | cancel : Steps s .cancel .none { s with cancelled := true }

theorem steps_of_machine (h : machine s l e t) : Steps s l e t := by
  cases l with
  | store now entry =>
    obtain ⟨r, hr, heq⟩ := Option.map_eq_some_iff.mp h
    cases heq
    exact .store (stores_of_store hr)
  | send choice =>
    obtain ⟨r, hr, heq⟩ := Option.map_eq_some_iff.mp h
    cases heq
    exact .send (sends_of_send hr)
  | cancel =>
    cases h
    exact .cancel

/-- What passes through the channel and through the hands of the sender in a step. -/
inductive Passes (a b : Auditor) : Event → Prop
  | still {e : Event} (hentry : e.entry = none) (hbatch : e.batch = none)
      (hbuffer : b.entries.buffer = a.entries.buffer)
      (htaken : b.sender.entriesToSend = a.sender.entriesToSend) : Passes a b e
  | put {entry : Entry} (hsend : a.entries.send entry = .done b.entries)
      (htaken : b.sender.entriesToSend = a.sender.entriesToSend) : Passes a b (.put entry)
  | taken {entry : Entry} (hreceive : a.entries.receive = some (entry, b.entries))
      (htaken : b.sender.entriesToSend = a.sender.entriesToSend ++ [entry])
      (hsize : b.sender.entriesToSend.length ≠ maxEntriesSize) : Passes a b .none
  | full {entry : Entry} {entries : List Entry}
      (hreceive : a.entries.receive = some (entry, b.entries))
      (hentries : a.sender.entriesToSend ++ [entry] = entries)
      (htaken : b.sender.entriesToSend = []) (hsize : entries.length = maxEntriesSize) :
      Passes a b (.handed entries)
  | handed {entries : List Entry} (hentries : a.sender.entriesToSend = entries)
      (hbuffer : b.entries.buffer = a.entries.buffer) (htaken : b.sender.entriesToSend = []) :
      Passes a b (.handed entries)

theorem Sends.passes {done : Bool} {choice : Choice} (h : Sends a done choice e b) :
    Passes a b e := by
  cases h with
  | start hsender =>
    refine .still rfl rfl rfl ?_
    rw [hsender]
    cases a.enabled <;> rfl
  | taken hsender hreceive hsize => exact .taken hreceive (by rw [hsender]; rfl) hsize
  | full hsender hreceive hsize => exact .full hreceive (by rw [hsender]; rfl) rfl hsize
  | idle hsender => exact .still rfl rfl rfl rfl
  | timer hsender => exact .handed (by rw [hsender]; rfl) rfl rfl
  | done hsender hdone => exact .still rfl rfl rfl (by rw [hsender]; rfl)
  | last hsender => exact .handed (by rw [hsender]; rfl) rfl rfl

theorem passes_machine (h : machine s l e t) : Passes s.auditor t.auditor e := by
  cases steps_of_machine h with
  | store hstores =>
    cases hstores with
    | put henabled hsend => exact .put hsend rfl
    | _ => exact .still rfl rfl rfl rfl
  | send hsends => exact hsends.passes
  | cancel => exact .still rfl rfl rfl rfl

/-! ## Whole runs -/

theorem putEntries_append (tr tr' : Trace) :
    putEntries (tr ++ tr') = putEntries tr ++ putEntries tr' := List.filterMap_append

theorem putEntries_concat : putEntries (tr ++ [(l, e)]) = putEntries tr ++ e.entry.toList := by
  rw [putEntries_append]
  cases h : e.entry <;> simp [h, putEntries]

theorem batches_concat : batches (tr ++ [(l, e)]) = batches tr ++ e.batch.toList := by
  rw [batches, List.filterMap_append]
  cases h : e.batch <;> simp [h, batches]

theorem size_concat (h : ∀ batch ∈ batches tr, batch.length ≤ maxEntriesSize)
    (he : ∀ batch, e.batch = some batch → batch.length ≤ maxEntriesSize) :
    ∀ batch ∈ batches (tr ++ [(l, e)]), batch.length ≤ maxEntriesSize := by
  intro batch hbatch
  rw [batches_concat, List.mem_append, Option.mem_toList] at hbatch
  exact hbatch.elim (h batch) (he batch)

/-- Everything that was put is in a batch, or taken by the sender, or in the channel, in this
order, and no batch is too large. -/
structure Delivers (tr : Trace) (s : State) : Prop where
  carries : s.auditor.entries.Carries (putEntries tr)
    ((batches tr).flatten ++ s.auditor.sender.entriesToSend)
  size : ∀ batch ∈ batches tr, batch.length ≤ maxEntriesSize
  taken : s.auditor.sender.entriesToSend.length < maxEntriesSize

theorem Delivers.step (h : Delivers tr s) (hstep : machine s l e t) :
    Delivers (tr ++ [(l, e)]) t := by
  obtain ⟨hcarries, hsize, hlt⟩ := h
  have hnone : ([] : List Entry).length < maxEntriesSize := by decide
  have hpasses := passes_machine hstep
  cases hpasses with
  | still hentry hbatch hbuffer htaken =>
    refine ⟨?_, size_concat hsize (fun batch h => by rw [hbatch] at h; cases h), htaken ▸ hlt⟩
    rw [putEntries_concat, batches_concat, hentry, hbatch, htaken, Channel.Carries, hbuffer]
    simpa [Channel.Carries] using hcarries
  | put hsend htaken =>
    refine ⟨?_, size_concat hsize (fun batch h => by cases h), htaken ▸ hlt⟩
    rw [putEntries_concat, batches_concat, htaken]
    simpa [Event.entry, Event.batch] using hcarries.send hsend
  | taken hreceive htaken hne =>
    refine ⟨?_, size_concat hsize (fun batch h => by cases h), ?_⟩
    · rw [putEntries_concat, batches_concat, htaken]
      simpa [Event.entry, Event.batch] using hcarries.receive hreceive
    · rw [htaken, List.length_append, List.length_singleton] at hne ⊢
      omega
  | full hreceive hentries htaken hfull =>
    refine ⟨?_, size_concat hsize (fun batch h => by cases h; exact hfull.le), htaken ▸ hnone⟩
    rw [putEntries_concat, batches_concat, htaken]
    simpa [Event.entry, Event.batch, ← hentries] using hcarries.receive hreceive
  | handed hentries hbuffer htaken =>
    refine ⟨?_, size_concat hsize (fun batch h => by cases h; exact hentries ▸ hlt.le),
      htaken ▸ hnone⟩
    rw [putEntries_concat, batches_concat, htaken, Channel.Carries, hbuffer]
    simpa [Event.entry, Event.batch, Channel.Carries, ← hentries] using hcarries

theorem delivers_run {enabled : Bool} (h : Run machine (fresh enabled) tr t) : Delivers tr t := by
  have hsnoc : ∀ tr s l e t, machine s l e t → True → Delivers tr s →
      Delivers (tr ++ [(l, e)]) t := fun tr s l e t hstep _ hs => hs.step hstep
  refine h.history (fun _ _ => trivial) ⟨rfl, fun batch hbatch => ?_, ?_⟩ hsnoc
  · cases hbatch
  · exact Nat.succ_pos _

/-! ## The end of the sender -/

/-- The sender has left its loop. -/
def Sender.Left (sender : Sender) : Prop :=
  sender = .returned ∨ ∃ entries, sender = .closing entries

/-- It has left the loop and the channel is closed. -/
def Ended (a : Auditor) : Prop := a.entries.closed = true ∧ Sender.Left a.sender

theorem not_left_looping (entries : List Entry) : ¬ Sender.Left (.looping entries) := by
  rintro (h | ⟨_, h⟩) <;> cases h

/-- Outside its loop the sender can only send for the last time. -/
theorem Sends.of_left {done : Bool} {choice : Choice} (h : Sends a done choice e b)
    (hleft : Sender.Left a.sender) :
    e.entry = none ∧ b.entries = a.entries ∧ b.sender = .returned := by
  cases h with
  | start hsender =>
    rw [hsender] at hleft
    rcases hleft with h | ⟨_, h⟩ <;> cases h
  | last hsender => exact ⟨rfl, rfl, rfl⟩
  | taken hsender | full hsender | idle hsender | timer hsender | done hsender =>
    exact absurd (hsender ▸ hleft) (not_left_looping _)

/-- Once the channel is closed, nothing is put into it and nothing is taken out of it. -/
theorem Ended.step (h : Ended s.auditor) (hstep : machine s l e t) :
    Ended t.auditor ∧ e.entry = none ∧ t.auditor.entries.buffer = s.auditor.entries.buffer := by
  cases steps_of_machine hstep with
  | store hstores =>
    cases hstores with
    | put henabled hsend =>
      have hopen := (Channel.send_done hsend).1
      rw [h.1] at hopen
      cases hopen
    | _ => exact ⟨h, rfl, rfl⟩
  | send hsends =>
    obtain ⟨hentry, hentries, hreturned⟩ := hsends.of_left h.2
    exact ⟨⟨by rw [hentries]; exact h.1, .inl hreturned⟩, hentry, by rw [hentries]⟩
  | cancel => exact ⟨h, rfl, rfl⟩

theorem Ended.run (h : Ended s.auditor) (hrun : Run machine s tr t) :
    putEntries tr = [] ∧ t.auditor.entries.buffer = s.auditor.entries.buffer := by
  induction hrun with
  | nil s => exact ⟨rfl, rfl⟩
  | cons hstep _ ih =>
    obtain ⟨hended, hentry, hbuffer⟩ := h.step hstep
    obtain ⟨hput, hbuffer'⟩ := ih hended
    exact ⟨by simpa [putEntries, hentry] using hput, hbuffer'.trans hbuffer⟩

theorem done_step (h : machine s (.send .done) e t) :
    s.cancelled = true ∧ e.entry = none ∧ Ended t.auditor ∧
      t.auditor.entries.buffer = s.auditor.entries.buffer := by
  cases steps_of_machine h with
  | send hsends =>
    cases hsends with
    | done hsender hdone => exact ⟨hdone, rfl, ⟨rfl, .inr ⟨_, rfl⟩⟩, rfl⟩

/-- An enabled sender leaves its loop only when it finds that the context has been cancelled. -/
theorem left_of_step (hstep : machine s l e t) (henabled : s.auditor.enabled = true)
    (hs : ¬ Sender.Left s.auditor.sender) (ht : Sender.Left t.auditor.sender) :
    l = .send .done := by
  cases steps_of_machine hstep with
  | store hstores => cases hstores <;> exact absurd ht hs
  | cancel => exact absurd ht hs
  | send hsends =>
    cases hsends with
    | done hsender hdone => rfl
    | start hsender =>
      rw [henabled] at ht
      exact absurd ht (not_left_looping _)
    | idle hsender => exact absurd ht hs
    | last hsender => exact absurd (.inr ⟨_, hsender⟩) hs
    | taken | full | timer => exact absurd ht (not_left_looping _)

theorem enabled_step (hstep : machine s l e t) : t.auditor.enabled = s.auditor.enabled := by
  cases steps_of_machine hstep with
  | store hstores => cases hstores <;> rfl
  | send hsends => cases hsends <;> rfl
  | cancel => rfl

theorem entry_of_disabled (hstep : machine s l e t) (h : s.auditor.enabled = false) :
    e.entry = none := by
  cases steps_of_machine hstep with
  | store hstores =>
    cases hstores with
    | put henabled hsend =>
      rw [h] at henabled
      cases henabled
    | _ => rfl
  | send hsends => cases hsends <;> rfl
  | cancel => rfl

theorem putEntries_disabled (h : Run machine (fresh false) tr t) : putEntries tr = [] := by
  have hsnoc : ∀ tr s l e t, machine s l e t → True →
      s.auditor.enabled = false ∧ putEntries tr = [] →
        t.auditor.enabled = false ∧ putEntries (tr ++ [(l, e)]) = [] := by
    rintro tr s l e t hstep - ⟨hdisabled, hput⟩
    refine ⟨(enabled_step hstep).trans hdisabled, ?_⟩
    rw [putEntries_concat, hput, entry_of_disabled hstep hdisabled]
    rfl
  exact (h.history (fun _ _ => trivial) ⟨rfl, rfl⟩ hsnoc).2

/-- An enabled sender that has left its loop has found the context cancelled. -/
theorem exists_done (h : Run machine (fresh true) tr t) (ht : Sender.Left t.auditor.sender) :
    ∃ tr' e, tr' ++ [(.send .done, e)] <+: tr := by
  have hsnoc : ∀ tr s l e t, machine s l e t → True →
      s.auditor.enabled = true ∧ (Sender.Left s.auditor.sender →
        ∃ tr' e, tr' ++ [(.send .done, e)] <+: tr) →
      t.auditor.enabled = true ∧ (Sender.Left t.auditor.sender →
        ∃ tr' e', tr' ++ [(.send .done, e')] <+: tr ++ [(l, e)]) := by
    rintro tr s l e t hstep - ⟨henabled, hs⟩
    refine ⟨(enabled_step hstep).trans henabled, fun ht => ?_⟩
    by_cases hleft : Sender.Left s.auditor.sender
    · obtain ⟨tr', e', hpre⟩ := hs hleft
      exact ⟨tr', e', hpre.trans (List.prefix_append _ _)⟩
    · rw [left_of_step hstep henabled hleft ht]
      exact ⟨tr, e, List.prefix_refl _⟩
  refine (h.history (fun _ _ => trivial) ⟨rfl, fun hleft => ?_⟩ hsnoc).2 ht
  rcases hleft with hleft | ⟨_, hleft⟩ <;> cases hleft

/-! ## Before and after the cancellation -/

theorem exists_cancel {enabled : Bool} (h : Run machine (fresh enabled) tr t)
    (ht : t.cancelled = true) : ∃ e ∈ tr, e.1 = .cancel := by
  have hsnoc : ∀ tr s l e t, machine s l e t → True →
      (s.cancelled = true → ∃ e ∈ tr, e.1 = .cancel) →
      t.cancelled = true → ∃ e' ∈ tr ++ [(l, e)], e'.1 = .cancel := by
    intro tr s l e t hstep _ hs ht
    cases steps_of_machine hstep with
    | cancel => exact ⟨_, List.mem_append_right _ List.mem_cons_self, rfl⟩
    | _ =>
      obtain ⟨e', he', hcancel⟩ := hs ht
      exact ⟨e', List.mem_append_left _ he', hcancel⟩
  refine h.history (fun _ _ => trivial) (fun hfalse => ?_) hsnoc ht
  cases hfalse

/-- What follows a cancellation does not change what came before it. -/
theorem beforeCancel_append (h : ∃ e ∈ tr, e.1 = .cancel) (tr' : Trace) :
    beforeCancel (tr ++ tr') = beforeCancel tr := by
  unfold beforeCancel
  rw [List.takeWhile_append, if_neg]
  intro hlength
  obtain ⟨e, he, hcancel⟩ := h
  rw [← (List.takeWhile_prefix _).eq_of_length hlength] at he
  have hne := List.mem_takeWhile_imp he
  exact of_decide_eq_true hne hcancel

/-- What was put into the channel after the cancellation. -/
def afterCancel (tr : Trace) : Trace := tr.dropWhile fun e => e.1 ≠ .cancel

/-- The batches are the beginning of what was put, none is too large, and when the sender has
returned they have everything that was put before the cancellation. -/
structure HandedOver (tr : Trace) (t : State) : Prop where
  begins : (batches tr).flatten <+: putEntries tr
  size : ∀ batch ∈ batches tr, batch.length ≤ maxEntriesSize
  complete : t.auditor.sender = .returned →
    putEntries (beforeCancel tr) <+: (batches tr).flatten

/-- Wherever the sender found the context cancelled, the channel held only entries put after the
cancellation. -/
def OnlyLater (enabled : Bool) (tr : Trace) (t : State) : Prop :=
  ∀ tr₁ e tr₂ s u, tr = tr₁ ++ (.send .done, e) :: tr₂ → Run machine (fresh enabled) tr₁ s →
    machine s (.send .done) e u → Run machine u tr₂ t →
      s.auditor.entries.buffer <:+ putEntries (afterCancel tr₁)

theorem isPrefix_iff_isSuffix {α : Type} {front back taken left : List α}
    (h : front ++ back = taken ++ left) : front <+: taken ↔ left <:+ back := by
  constructor
  · rintro ⟨rest, rfl⟩
    rw [List.append_assoc, List.append_cancel_left_eq] at h
    exact ⟨rest, h.symm⟩
  · rintro ⟨rest, rfl⟩
    rw [← List.append_assoc, List.append_cancel_right_eq] at h
    exact ⟨rest, h⟩

/-- What the batches have is decided when the sender finds the context cancelled. -/
theorem complete_iff {enabled : Bool} {tr₁ tr₂ : Trace} {u : State}
    (h₁ : Run machine (fresh enabled) tr₁ s) (hdone : machine s (.send .done) e u)
    (h₂ : Run machine u tr₂ t) (ht : t.auditor.sender = .returned) :
    putEntries (beforeCancel (tr₁ ++ (.send .done, e) :: tr₂)) <+:
        (batches (tr₁ ++ (.send .done, e) :: tr₂)).flatten ↔
      s.auditor.entries.buffer <:+ putEntries (afterCancel tr₁) := by
  have hrun : Run machine (fresh enabled) (tr₁ ++ (.send .done, e) :: tr₂) t :=
    run_append.mpr ⟨s, h₁, .cons hdone h₂⟩
  obtain ⟨hcancelled, hentry, hended, hbuffer⟩ := done_step hdone
  obtain ⟨hput, hbuffer'⟩ := hended.run h₂
  have hcarries := (delivers_run hrun).carries
  rw [ht, Channel.Carries, hbuffer'.trans hbuffer] at hcarries
  rw [beforeCancel_append (exists_cancel h₁ hcancelled)]
  apply isPrefix_iff_isSuffix
  have hdropped : putEntries ((.send .done, e) :: tr₂) = [] := by
    simpa [putEntries, hentry] using hput
  rw [putEntries_append, hdropped, List.append_nil] at hcarries
  rw [← putEntries_append, beforeCancel, afterCancel, List.takeWhile_append_dropWhile, hcarries]
  simp [Sender.entriesToSend]

/-- In every run the batches are the beginning of what was put and none is too large. When the
sender has returned they have all that was put before the cancellation, if and only if the
channel held none of it when the sender found the context cancelled. -/
theorem handedOver_iff {enabled : Bool} (h : Run machine (fresh enabled) tr t) :
    HandedOver tr t ↔ (t.auditor.sender = .returned → OnlyLater enabled tr t) := by
  have hdelivers := delivers_run h
  constructor
  · rintro hover ht tr₁ e tr₂ s u rfl h₁ hdone h₂
    exact (complete_iff h₁ hdone h₂ ht).mp (hover.complete ht)
  · intro honly
    refine ⟨?_, hdelivers.size, fun ht => ?_⟩
    · exact (List.prefix_append _ _).trans hdelivers.carries.begins
    · cases enabled with
      | false =>
        have hnone : putEntries (beforeCancel tr) <+: putEntries tr :=
          (List.takeWhile_prefix _).filterMap _
        rw [putEntries_disabled h, List.prefix_nil] at hnone
        rw [hnone]
        exact List.nil_prefix
      | true =>
        obtain ⟨tr₁, e, tr₂, rfl⟩ := exists_done h (.inl ht)
        rw [List.append_assoc] at h honly ⊢
        obtain ⟨s, h₁, hrest⟩ := run_append.mp h
        obtain ⟨u, hdone, h₂⟩ := run_cons.mp hrest
        exact (complete_iff h₁ hdone h₂ ht).mpr (honly ht tr₁ e tr₂ s u rfl h₁ hdone h₂)

/-- An entry is put into the channel, taken out by the sender and sent when the context is
cancelled. -/
def takenBefore : List Label :=
  [.send .start, .store 0 { id := "a", queue := "q", signal := .unlock }, .send .receive, .cancel,
    .send .done, .send .last]

theorem handedOver_taken :
    ∃ tr t, Run machine (fresh true) tr t ∧ t.auditor.sender = .returned ∧
      (putEntries (beforeCancel tr)).length = 1 ∧ HandedOver tr t := by
  obtain ⟨⟨tr, t⟩, hreplay, hend⟩ := (Option.any_eq_true _ _).mp
    (show ((replay step (fresh true) takenBefore).any fun r =>
        decide (r.2.auditor.sender = .returned) && r.2.auditor.entries.buffer.isEmpty &&
          (putEntries (beforeCancel r.1)).length == 1) = true by decide +kernel)
  rw [Bool.and_eq_true, Bool.and_eq_true, decide_eq_true_eq, List.isEmpty_iff, beq_iff_eq] at hend
  obtain ⟨⟨hreturned, hbuffer⟩, hput⟩ := hend
  have hrun : Run machine (fresh true) tr t := run_replay hreplay
  refine ⟨tr, t, hrun, hreturned, hput, (handedOver_iff hrun).mpr fun _ => ?_⟩
  intro tr₁ e tr₂ s u _ _ hdone h₂
  obtain ⟨-, -, hended, hbuffer'⟩ := done_step hdone
  rw [← hbuffer', ← (hended.run h₂).2, hbuffer]
  exact List.nil_suffix

/-- An entry is put into the channel, and the sender chooses the end of the context before it. -/
def leftInChannel : List Label :=
  [.send .start, .store 0 { id := "a", queue := "q", signal := .unlock }, .cancel, .send .done,
    .send .last]

/-- The sender has returned and the entry was not sent. -/
theorem entry_left_in_channel :
    ∃ tr t, Run machine (fresh true) tr t ∧ t.auditor.sender = .returned ∧
      (putEntries (beforeCancel tr)).map Entry.id = ["a"] ∧ (batches tr).flatten = [] := by
  obtain ⟨⟨tr, t⟩, hreplay, hend⟩ := (Option.any_eq_true _ _).mp
    (show ((replay step (fresh true) leftInChannel).any fun r =>
        decide (r.2.auditor.sender = .returned) &&
          decide ((putEntries (beforeCancel r.1)).map Entry.id = ["a"]) &&
          (batches r.1).flatten.isEmpty) = true by decide +kernel)
  rw [Bool.and_eq_true, Bool.and_eq_true, decide_eq_true_eq, decide_eq_true_eq,
    List.isEmpty_iff] at hend
  exact ⟨tr, t, run_replay hreplay, hend.1.1, hend.1.2, hend.2⟩

end Deckard.Audit
