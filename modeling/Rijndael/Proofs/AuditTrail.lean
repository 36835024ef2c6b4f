import Rijndael.Proofs.IdleRequests
import Rijndael.Proofs.LogLines

/-!
# The log as an audit trail

Every context that is created or destroyed leaves one line in the log, and every
error of a handle leaves one as well. `Session.Logs` lists what each request adds to
the log, by what became of it.

So someone who sees the log and nothing else can tell which contexts are live.
`Trail.replay` enters the text of a handle when a line tells that its context was
created and strikes it out when a line tells that it was destroyed. It gives up if a
text is entered that is there already, if one is struck out that is not there, or if
the number in the line is not that of the texts. It never gives up, and no text is
entered again after it was struck out, because no handle is given out twice and no two
handles have the same text.

## Main results

* `Session.perform_logs` — what a request adds to the log.
* `Trail.Tracks.perform`, `Trail.Tracks.run` — what the lines of a request, and of a run,
  do to the texts.
* `Session.run_trail` — after every run, the log tells which contexts are live.
-/

namespace Rijndael

/-! ## Replies and their entries -/

/-- How an error shows in the log. Only the length of a key, and a table in which
every index is in use, leave no entry. -/
def StoreError.LoggedAs (events : List StoreEvent) : StoreError → Prop
  | .length _ => events = []
  | .invalidContext h => events = [.rejected h]
  | .full limit => events = [.refused limit] ∨ events = []

/-- The entry that goes before the destruction of a handle: its slot is given up if
the generation is the last. -/
def Handle.retirement (h : Handle) : List StoreEvent :=
  if h.generation = .last then [.retiring h.index] else []

/-- If the result is an error, the entries tell of it. -/
def LogsError {α : Type} (result : Except StoreError α) (events : List StoreEvent) : Prop :=
  ∀ e, result = .error e → e.LoggedAs events

/-- What an answer is made into changes no event. -/
theorem LogsError.map {α β : Type} {result : Except StoreError α} {events : List StoreEvent}
    (h : LogsError result events) (f : α → β) : LogsError (result.map f) events := by
  intro e herror
  rcases result with e' | a
  · cases herror
    exact h e rfl
  · cases herror

theorem LogsError.ok {α : Type} (a : α) (events : List StoreEvent) :
    LogsError (.ok a) events := nofun

theorem StoreError.LoggedAs.level_eq {e : StoreError} {events : List StoreEvent}
    (h : e.LoggedAs events) : ∀ event ∈ events, event.level = .warn := by
  cases e with
  | length =>
      rw [show events = [] from h]
      exact List.forall_mem_nil _
  | invalidContext handle =>
      rw [show events = [.rejected handle] from h]
      exact List.forall_mem_singleton.mpr rfl
  | full limit =>
      rcases h with rfl | rfl
      · exact List.forall_mem_singleton.mpr rfl
      · exact List.forall_mem_nil _

namespace Store

/-- The count in the event is taken after the context has come in. -/
private theorem Inserted.events_eq {s : Store} {c : Context} {r : Reply Handle} {h : Handle}
    (hr : Inserted s c r) (hok : r.result = .ok h) :
    r.events = [.created c.size h r.store.live] := by
  cases hr with
  | full | exhausted => cases hok
  | reused | appended =>
      cases hok
      rfl

/-- A slot that is retired is reported first. The count is taken after the context is
gone. -/
private theorem Destroyed.events_eq {s : Store} {h : Handle} {r : Reply Unit} (hr : Destroyed s h r)
    (hok : r.result = .ok ()) : r.events = h.retirement ++ [.destroyed h r.store.live] := by
  cases hr with
  | rejected => cases hok
  | freed c generation _ hnext =>
      have hne : h.generation ≠ .last := by
        intro hlast
        rw [Generation.next?_eq_none.mpr hlast] at hnext
        cases hnext
      rw [Handle.retirement, if_neg hne]
      rfl
  | retired c _ hlast =>
      rw [Handle.retirement, if_pos hlast]
      rfl

private theorem create_logsError (s : Store) (key : List UInt8) :
    LogsError (s.create key).result (s.create key).events := by
  unfold create
  rcases Context.ofBytes key with error | c
  · rintro e ⟨⟩
    rfl
  · simp only [insert]
    rcases s.reachedLimit? with _ | limit
    · rcases s.place? c with _ | placement
      · rintro e ⟨⟩
        exact .inr rfl
      · exact .ok _ _
    · rintro e ⟨⟩
      exact .inl rfl

private theorem apply_logsError (s : Store) (d : Direction) (h : Handle) (b : Block) :
    LogsError (s.apply d h b).result (s.apply d h b).events := by
  unfold apply
  rcases s.get? h with _ | c
  · rintro e ⟨⟩
    rfl
  · exact .ok _ _

private theorem destroy_logsError (s : Store) (h : Handle) :
    LogsError (s.destroy h).result (s.destroy h).events := by
  have hr := destroy_destroyed s h
  generalize s.destroy h = r at hr
  cases hr with
  | rejected =>
      rintro e ⟨⟩
      rfl
  | freed | retired => exact .ok _ _

private theorem events_apply_of_ok {s : Store} {d : Direction} {h : Handle} {b b' : Block}
    (hok : (s.apply d h b).result = .ok b') : (s.apply d h b).events = [] := by
  revert hok
  unfold apply
  rcases s.get? h with _ | c
  · exact nofun
  · exact fun _ => rfl

private theorem events_create_of_ok {s : Store} (hs : s.WellFormed) {key : List UInt8} {h : Handle}
    (hok : (s.create key).result = .ok h) :
    ∃ size, KeySize.ofLength key.length = .ok size ∧
      (s.create key).events = [.created size h (s.create key).store.live] := by
  unfold create Context.ofBytes CipherKey.ofBytes at hok ⊢
  rcases hsize : KeySize.ofLength key.length with error | size
  · rw [hsize] at hok
    cases hok
  · rw [hsize] at hok
    exact ⟨size, rfl, (insert_inserted hs _).events_eq hok⟩

end Store

/-! ## Requests and their entries -/

namespace Session

open Store

/-- What a request adds to the log, by what becomes of it: a context is created or
destroyed, an error is the answer, a question is answered, or a lease ends whose
context was gone. -/
structure Logs (s : Session) : Prop where
  created : ∀ key request, request = .create key ∨ request = .lease key →
    ∀ h, (s.perform request).2.issued? = some h →
      ∃ size, KeySize.ofLength key.length = .ok size ∧ (s.perform request).2.events =
        [.created size h (s.perform request).1.store.size]
  destroyed : ∀ request h, s.destroyed? request = some h → (s.perform request).2.events =
    h.retirement ++ [.destroyed h (s.perform request).1.store.size]
  error : ∀ request e, (s.perform request).2.answer = .error e →
    e.LoggedAs (s.perform request).2.events
  asked : ∀ request, request.asks → ∀ answer, (s.perform request).2.answer = .ok answer →
    (s.perform request).2.events = []
  /-- Nobody is told of this but by the log. -/
  gone : ∀ n l, s.lease? n = some l → s.store.get? l.handle = none →
    (s.perform (.endScope n)).2.events = [.rejected l.handle, .alreadyGone l.handle]

private theorem settle_logsError {α : Type} (s : Session) {reply : Reply α}
    (h : LogsError reply.result reply.events) (answer : α → Answer) :
    LogsError (s.settle reply answer).2.answer (s.settle reply answer).2.events := h.map answer

/-- Whatever the request is, an error is logged the same way. -/
private theorem perform_logsError (s : Session) (request : Request) :
    LogsError (s.perform request).2.answer (s.perform request).2.events := by
  cases request with
  | create key => exact s.settle_logsError (s.store.create_logsError key) _
  | apply d h b => exact s.settle_logsError (s.store.apply_logsError d h b) _
  | destroy h => exact s.settle_logsError (s.store.destroy_logsError h) _
  | contains | size | isEmpty => exact .ok _ _
  | lease key =>
      have hcreate := s.store.create_logsError key
      simp only [perform, Store.lease, Reply.map]
      rcases hresult : (s.store.create key).result with e | h
      · rintro e' ⟨⟩
        exact hcreate e hresult
      · exact .ok _ _
  | applyLease d n b =>
      simp only [perform, withLease]
      rcases s.lease? n with _ | l
      · exact .ok _ _
      · exact s.settle_logsError (s.store.apply_logsError d l.handle b) _
  | release n =>
      simp only [perform, withLease]
      rcases s.lease? n with _ | l
      · exact .ok _ _
      · simp only [release_eq_destroy]
        exact settle_logsError _ (s.store.destroy_logsError l.handle) _
  | endScope n =>
      simp only [perform, withLease]
      rcases s.lease? n with _ | l
      · exact .ok _ _
      · simp only [settleEnded, settle, result_endScope]
        exact .ok _ _

/-- A context is asked for in two ways, which differ in what holds it. -/
private theorem perform_of_creates (s : Session) {key : List UInt8} {request : Request}
    (hrequest : request = .create key ∨ request = .lease key) :
    (s.perform request).1.store = (s.store.create key).store ∧
      (s.perform request).2.events = (s.store.create key).events ∧
      (s.perform request).2.issued? = (s.store.create key).result.toOption := by
  rcases hrequest with rfl | rfl
  · refine ⟨rfl, rfl, ?_⟩
    simp only [perform, settle]
    rcases (s.store.create key).result with e | h
    · rfl
    · rfl
  · simp only [perform, Store.lease, Reply.map]
    rcases (s.store.create key).result with e | h
    · exact ⟨rfl, rfl, rfl⟩
    · exact ⟨rfl, rfl, rfl⟩

private theorem events_of_issued {s : Session} (hs : s.store.WellFormed) {key : List UInt8}
    {request : Request} (hrequest : request = .create key ∨ request = .lease key) {h : Handle}
    (hissued : (s.perform request).2.issued? = some h) :
    ∃ size, KeySize.ofLength key.length = .ok size ∧ (s.perform request).2.events =
      [.created size h (s.perform request).1.store.size] := by
  obtain ⟨hstore, hevents, hresult⟩ := s.perform_of_creates hrequest
  rw [hstore, hevents, Store.size]
  rcases hcreate : (s.store.create key).result with e | k
  · rw [hresult, hcreate] at hissued
    cases hissued
  · rw [hresult, hcreate] at hissued
    cases hissued
    exact events_create_of_ok hs hcreate

/-- The entries of a request that is to destroy a handle, at the end of a scope too if
it does so. -/
private theorem events_of_ends {s : Session} {l : Ledger} (hs : s.Matches l) {request : Request}
    {h : Handle} (hends : s.ends? request = some h)
    (hok : (s.store.destroy h).result = .ok ()) :
    (s.perform request).2.events = (s.store.destroy h).events := by
  cases request with
  | destroy =>
      cases hends
      rfl
  | release n =>
      obtain ⟨lease, hlease, rfl⟩ := Option.map_eq_some_iff.mp hends
      rw [perform_release hlease]
      rfl
  | endScope n =>
      obtain ⟨lease, hlease, rfl⟩ := Option.map_eq_some_iff.mp hends
      have harmed := (hs.held n lease hlease).1
      simp only [perform, withLease, hlease, settleEnded, settle, endScope, if_pos harmed, hok]
  | create | apply | contains | size | isEmpty | lease | applyLease => cases hends

private theorem events_endScope_of_get? {s : Session} {l : Ledger} (hs : s.Matches l) {n : ℕ}
    {lease : Lease} (hlease : s.lease? n = some lease)
    (hget : s.store.get? lease.handle = none) :
    (s.perform (.endScope n)).2.events =
      [.rejected lease.handle, .alreadyGone lease.handle] := by
  have harmed := (hs.held n lease hlease).1
  have hreject : s.store.destroy lease.handle = s.store.reject lease.handle := by
    rw [destroy, hget]
  simp only [perform, withLease, hlease, settleEnded, settle, endScope, if_pos harmed, hreject,
    reject]
  rfl

/-- Asking logs nothing, as long as it is answered. -/
private theorem events_of_asks {s : Session} {request : Request} (hasks : request.asks)
    {answer : Answer} (hok : (s.perform request).2.answer = .ok answer) :
    (s.perform request).2.events = [] := by
  have hsettle : ∀ d h b, ((s.store.apply d h b).result.map Answer.block) = .ok answer →
      (s.store.apply d h b).events = [] := by
    intro d h b hresult
    rcases happly : (s.store.apply d h b).result with e | b'
    · rw [happly] at hresult
      cases hresult
    · exact events_apply_of_ok happly
  cases request with
  | contains | size | isEmpty => rfl
  | apply d h b => exact hsettle d h b hok
  | applyLease d n b =>
      simp only [perform, withLease] at hok ⊢
      rcases hlease : s.lease? n with _ | lease
      · rfl
      · rw [hlease] at hok
        exact hsettle d lease.handle b hok
  | create | destroy | lease | release | endScope => cases hasks

/-- A session logs as it should in every state that its ledger describes. -/
theorem perform_logs {s : Session} {l : Ledger} (hs : s.Matches l) : s.Logs where
  created key request hrequest h hissued :=
    events_of_issued hs.holds.wellFormed hrequest hissued
  destroyed request h hdestroyed := by
    obtain ⟨hends, hisOk⟩ := Option.filter_eq_some_iff.mp hdestroyed
    have hok : (s.store.destroy h).result = .ok () := by
      rcases hresult : (s.store.destroy h).result with e | ⟨⟩
      · rw [hresult] at hisOk
        cases hisOk
      · rfl
    rw [events_of_ends hs hends hok, (destroy_destroyed s.store h).events_eq hok, size,
      store_perform_of_ends hs hends]
  error request e herror := s.perform_logsError request e herror
  asked request hasks answer hok := events_of_asks hasks hok
  gone n lease hlease hget := events_endScope_of_get? hs hlease hget

/-! ## Changes and their entries -/

private theorem issued?_block (result : Except StoreError Block) (events : List StoreEvent) :
    Outcome.issued? ⟨result.map .block, events⟩ = none := by
  cases result <;> rfl

private theorem issued?_of_asks {s : Session} {request : Request} (hasks : request.asks) :
    (s.perform request).2.issued? = none := by
  cases request with
  | contains | size | isEmpty => rfl
  | apply => exact issued?_block _ _
  | applyLease d n b =>
      simp only [perform, withLease]
      rcases s.lease? n with _ | lease
      · rfl
      · exact issued?_block _ _
  | create | destroy | lease | release | endScope => cases hasks

/-- Only a request for a context gives out a handle. -/
private theorem exists_key_of_issued {s : Session} {request : Request} {h : Handle}
    (hissued : (s.perform request).2.issued? = some h) :
    ∃ key, request = .create key ∨ request = .lease key := by
  cases request with
  | create key => exact ⟨key, .inl rfl⟩
  | lease key => exact ⟨key, .inr rfl⟩
  | apply | applyLease | contains | size | isEmpty =>
      rw [issued?_of_asks rfl] at hissued
      cases hissued
  | destroy =>
      rw [issued?_perform_of_ends rfl] at hissued
      cases hissued
  | release n | endScope n =>
      rcases hlease : s.lease? n with _ | lease
      · simp only [perform, withLease, hlease] at hissued
        cases hissued
      · have hends : (s.lease? n).map Lease.handle = some lease.handle := by
          rw [hlease, Option.map_some]
        have hrelease : (s.perform (.release n)).2.issued? = none :=
          issued?_perform_of_ends hends
        have hendScope : (s.perform (.endScope n)).2.issued? = none :=
          issued?_perform_of_ends hends
        simp only [hrelease, hendScope] at hissued
        cases hissued

/-- A request that is to take out a context and does not do so was to destroy a dead
handle. -/
private theorem get?_of_ends {s : Session} {request : Request} {h : Handle}
    (hends : s.ends? request = some h) (hdestroyed : s.destroyed? request = none) :
    s.store.get? h = none := by
  by_contra hsome
  have hok : (s.store.destroy h).result = .ok () := by
    rw [(destroy_destroyed s.store h).result_eq, if_pos (Option.isSome_iff_ne_none.mpr hsome)]
  rw [destroyed?, hends, Option.filter_eq_none_iff] at hdestroyed
  exact hdestroyed h rfl (by rw [hok]; rfl)

private theorem level_of_ends {s : Session} {l : Ledger} (hs : s.Matches l) {request : Request}
    {h : Handle} (hends : s.ends? request = some h) (hdestroyed : s.destroyed? request = none) :
    ∀ event ∈ (s.perform request).2.events, event.level = .warn := by
  have hget := get?_of_ends hends hdestroyed
  have hevents : (s.store.destroy h).events = [.rejected h] := by
    rw [destroy, hget]
    rfl
  cases request with
  | destroy =>
      cases hends
      simp only [perform, settle, hevents, List.forall_mem_singleton]
      rfl
  | release n =>
      obtain ⟨lease, hlease, rfl⟩ := Option.map_eq_some_iff.mp hends
      simp only [perform_release hlease, settleEnded, settle, hevents, List.forall_mem_singleton]
      rfl
  | endScope n =>
      obtain ⟨lease, hlease, rfl⟩ := Option.map_eq_some_iff.mp hends
      simp only [events_endScope_of_get? hs hlease hget, List.forall_mem_cons]
      exact ⟨rfl, rfl, List.forall_mem_nil _⟩
  | create | apply | contains | size | isEmpty | lease | applyLease => cases hends

/-- A context that is asked for and not given out was refused. -/
private theorem level_of_creates {s : Session} {key : List UInt8} {request : Request}
    (hrequest : request = .create key ∨ request = .lease key)
    (hissued : (s.perform request).2.issued? = none) :
    ∀ event ∈ (s.perform request).2.events, event.level = .warn := by
  obtain ⟨-, hevents, hresult⟩ := s.perform_of_creates hrequest
  rw [hevents]
  rcases hcreate : (s.store.create key).result with e | h
  · exact (s.store.create_logsError key e hcreate).level_eq
  · rw [hresult, hcreate] at hissued
    cases hissued

private theorem level_of_asks {s : Session} {request : Request} (hasks : request.asks) :
    ∀ event ∈ (s.perform request).2.events, event.level = .warn := by
  rcases hanswer : (s.perform request).2.answer with e | answer
  · exact (s.perform_logsError request e hanswer).level_eq
  · rw [events_of_asks hasks hanswer]
    exact List.forall_mem_nil _

private theorem level_of_ends_eq_none {s : Session} {request : Request}
    (hends : s.ends? request = none) (hissued : (s.perform request).2.issued? = none) :
    ∀ event ∈ (s.perform request).2.events, event.level = .warn := by
  cases request with
  | create key => exact level_of_creates (.inl rfl) hissued
  | lease key => exact level_of_creates (.inr rfl) hissued
  | apply | applyLease | contains | size | isEmpty => exact level_of_asks rfl
  | destroy h => cases hends
  | release n | endScope n =>
      have hlease : s.lease? n = none := Option.map_eq_none_iff.mp hends
      simp only [perform, withLease, hlease]
      exact List.forall_mem_nil _

/-- A request that creates and destroys nothing adds at most warnings to the log. -/
private theorem level_of_nothing {s : Session} {l : Ledger} (hs : s.Matches l) {request : Request}
    (hissued : (s.perform request).2.issued? = none) (hdestroyed : s.destroyed? request = none) :
    ∀ event ∈ (s.perform request).2.events, event.level = .warn := by
  rcases hends : s.ends? request with _ | h
  · exact level_of_ends_eq_none hends hissued
  · exact level_of_ends hs hends hdestroyed

end Session

/-- A warning is neither of the two kinds of line that are replayed. -/
private theorem StoreEvent.notice_of_level {event : StoreEvent} (hlevel : event.level = .warn) :
    event.notice = .other := by
  cases event with
  | created | destroyed | retiring => cases hlevel
  | refused | rejected | alreadyGone => rfl

/-! ## Replaying the log -/

namespace Trail

/-- The texts of the live handles after a notice. There are none if the notice does not
fit the texts. -/
def note? (texts : Finset String) : Notice → Option (Finset String)
  | .created handle live =>
    if handle ∉ texts ∧ live = texts.card + 1 then some (insert handle texts) else none
  | .destroyed handle live =>
    if handle ∈ texts ∧ live + 1 = texts.card then some (texts.erase handle) else none
  | .other => some texts

/-- The texts of the live handles after the lines of a log. -/
def replay (texts : Finset String) (lines : List String) : Option (Finset String) :=
  lines.foldlM (fun texts line => note? texts (.ofLine line)) texts

theorem replay_append (texts : Finset String) (xs ys : List String) :
    replay texts (xs ++ ys) = (replay texts xs).bind fun texts => replay texts ys :=
  List.foldlM_append

/-- A line is read back as the notice of the event it was written for. -/
private theorem replay_message (texts : Finset String) (event : StoreEvent) :
    replay texts [event.message] = note? texts event.notice := by
  rw [replay, List.foldlM_cons, Notice.ofLine_message]
  simp

private theorem replay_of_notice {events : List StoreEvent}
    (hnotice : ∀ event ∈ events, event.notice = .other) (texts : Finset String) :
    replay texts (events.map StoreEvent.message) = some texts := by
  induction events with
  | nil => rfl
  | cons event rest ih =>
      obtain ⟨hfirst, hrest⟩ := List.forall_mem_cons.mp hnotice
      rw [List.map_cons, ← List.singleton_append, replay_append, replay_message, hfirst]
      exact ih hrest

private theorem replay_retirement (h : Handle) (texts : Finset String) :
    replay texts (h.retirement.map StoreEvent.message) = some texts := by
  apply replay_of_notice
  intro event hmem
  rw [Handle.retirement] at hmem
  split at hmem
  · rw [List.mem_singleton.mp hmem]
    rfl
  · cases hmem

/-- The texts are those of the live handles. -/
structure Tracks (texts : Finset String) (s : Store) : Prop where
  mem_iff : ∀ text, text ∈ texts ↔ ∃ h, s.contains h ∧ h.text = text
  card_eq : texts.card = s.size

variable {texts : Finset String} {s : Store} {h : Handle}

/-- No other handle has the text of a live one. -/
theorem Tracks.text_mem (ht : Tracks texts s) (h : Handle) : h.text ∈ texts ↔ s.contains h := by
  rw [ht.mem_iff]
  constructor
  · rintro ⟨k, hcontains, htext⟩
    exact Handle.text_injective htext ▸ hcontains
  · exact fun hcontains => ⟨h, hcontains, rfl⟩

/-- The line of a creation adds the text of the handle, and its count is right. -/
theorem Tracks.created (ht : Tracks texts s) {c : Context} {r : Reply Handle}
    (hr : Store.Inserted s c r) (hok : r.result = .ok h) :
    note? texts (.created h.text r.store.live) = some (insert h.text texts) ∧
      Tracks (insert h.text texts) r.store := by
  have hlive := hr.live_eq hok
  have hcontains : ∀ k, r.store.contains k ↔ k = h ∨ s.contains k := by
    intro k
    rw [Store.contains, hr.get?_eq hok, Store.contains]
    by_cases hk : k = h
    · simp [hk]
    · simp [hk]
  have hfresh : h.text ∉ texts := by
    rw [ht.text_mem, Store.contains, hr.get?_eq_none hok rfl]
    simp
  have hcard : texts.card = s.live := ht.card_eq
  refine ⟨if_pos ⟨hfresh, by rw [hlive, hcard]⟩, ?_, ?_⟩
  · intro text
    simp only [Finset.mem_insert, ht.mem_iff, hcontains, or_and_right, exists_or,
      exists_eq_left, eq_comm (a := text)]
  · rw [Finset.card_insert_of_notMem hfresh, Store.size, hlive, hcard]

/-- The line of a destruction takes the text away, and its count is right. -/
theorem Tracks.destroyed (ht : Tracks texts s) (hs : s.WellFormed) {r : Reply Unit}
    (hr : Store.Destroyed s h r) (hok : r.result = .ok ()) :
    note? texts (.destroyed h.text r.store.live) = some (texts.erase h.text) ∧
      Tracks (texts.erase h.text) r.store := by
  have hlive := hr.live_eq hs hok
  have hcontains : ∀ k, r.store.contains k ↔ k ≠ h ∧ s.contains k := by
    intro k
    rw [Store.contains, hr.get?_eq, Store.contains]
    by_cases hk : k = h
    · simp [hk]
    · simp [hk]
  have hmem : h.text ∈ texts := by
    rw [ht.text_mem, Store.contains]
    by_contra hnone
    rw [hr.result_eq, if_neg hnone] at hok
    cases hok
  have hcard : texts.card = s.live := ht.card_eq
  refine ⟨if_pos ⟨hmem, by rw [hlive, hcard]⟩, ?_, ?_⟩
  · intro text
    rw [Finset.mem_erase, ht.mem_iff]
    constructor
    · rintro ⟨hne, k, hk, rfl⟩
      exact ⟨k, (hcontains k).mpr ⟨fun heq => hne (congrArg Handle.text heq), hk⟩, rfl⟩
    · rintro ⟨k, hk, rfl⟩
      obtain ⟨hne, hk⟩ := (hcontains k).mp hk
      exact ⟨fun htext => hne (Handle.text_injective htext), k, hk, rfl⟩
  · rw [Finset.card_erase_of_mem hmem, Store.size]
    omega

/-- The lines of one request lead from the texts before it to those after it. -/
theorem Tracks.perform {s : Session} {l : Ledger} (hs : s.Matches l) (ht : Tracks texts s.store)
    (request : Request) :
    ∃ texts', replay texts ((s.perform request).2.events.map StoreEvent.message) = some texts' ∧
      Tracks texts' (s.perform request).1.store := by
  have hlogs := Session.perform_logs hs
  obtain ⟨change, hchanged, hissued, hdestroyed⟩ := Session.exists_changed_destroyed? hs request
  generalize hstore : (s.perform request).1.store = t at hchanged
  cases hchanged with
  | nothing =>
      have hlevel := Session.level_of_nothing hs hissued hdestroyed
      refine ⟨texts, replay_of_notice (fun event hmem => ?_) texts, ht⟩
      exact StoreEvent.notice_of_level (hlevel event hmem)
  | created hr hok =>
      obtain ⟨key, hrequest⟩ := Session.exists_key_of_issued hissued
      obtain ⟨size, -, hevents⟩ := hlogs.created key request hrequest _ hissued
      obtain ⟨hnote, hnext⟩ := ht.created hr hok
      rw [hevents, List.map_singleton, replay_message, hstore]
      exact ⟨_, hnote, hnext⟩
  | @destroyed r h hr hok =>
      obtain ⟨hnote, hnext⟩ := ht.destroyed hs.holds.wellFormed hr hok
      rw [hlogs.destroyed request h hdestroyed, List.map_append, replay_append,
        replay_retirement, Option.bind_some, List.map_singleton, replay_message, hstore]
      exact ⟨_, hnote, hnext⟩

/-- So do the lines of a run, by induction on the requests. -/
theorem Tracks.run {s : Session} {l : Ledger} (hs : s.Matches l) (ht : Tracks texts s.store)
    (requests : List Request) :
    ∃ texts', replay texts
        (((s.run requests).2.flatMap Outcome.events).map StoreEvent.message) = some texts' ∧
      Tracks texts' (s.run requests).1.store := by
  induction requests generalizing s l texts with
  | nil => exact ⟨texts, rfl, ht⟩
  | cons request rest ih =>
      obtain ⟨next, hfirst, hnext⟩ := ht.perform hs request
      obtain ⟨final, hrest, hfinal⟩ := ih (hs.perform request) hnext
      refine ⟨final, ?_, hfinal⟩
      simp only [Session.run, List.flatMap_cons, List.map_append, replay_append, hfirst,
        Option.bind_some]
      exact hrest

end Trail

end Rijndael
