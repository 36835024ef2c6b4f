import Rijndael.Proofs.Actions
import Rijndael.Proofs.ParsedTexts
import Rijndael.Proofs.PlainKeys

/-!
# Commands leave the store as they find it

A command may be run on a store that others use as well. Whatever contexts are live
in it, the command leaves just those, each behind its handle and with its key. This is
so when it succeeds and when it stops at any of its failures, since each context of
its own lives in a scope, or is destroyed before anything else can fail. The handles of
its own contexts are never refused on the way.

`Action.Leads` says this of one step, with the keys that the store holds before and
after it. There is one rule for each kind of step, and a command is put together from
them.

## Main results

* `Leads.bind_insert`, `Leads.ask_destroy` — a context that is put in and taken out.
* `Leads.withLease` — an action with a context that lives just as long.
* `Command.action_leads` — every command, from any store that holds some keys.
* `Command.neutral_on_run` — every command on every store that requests lead to.
-/

namespace Rijndael

/-- Every key is one that contexts can be made from. -/
private theorem Context.ofBytes_toBytes (key : CipherKey) :
    ofBytes key.toBytes = .ok (.ofKey key) := by
  rw [ofBytes, CipherKey.ofBytes_eq_ok_iff.mpr rfl]
  rfl

/-- A handle that is taken up and given back leaves no trace. -/
private theorem KeyMap.erase_insert {keys : KeyMap} {h : Handle} (hfresh : h ∉ keys)
    (key : List UInt8) : (keys.insert h key).erase h = keys := by
  apply Finmap.ext_lookup
  intro k
  by_cases hk : k = h
  · rw [hk, Finmap.lookup_erase, Finmap.lookup_eq_none.mpr hfresh]
  · rw [Finmap.lookup_erase_ne hk, Finmap.lookup_insert_of_ne keys hk]

namespace Program

/-! ## Rejections -/

/-- The handle of a context of the command itself was refused. -/
def Failure.isRejection : Failure → Bool
  | .transform _ | .release _ | .destroy _ => true
  | .keyText _ | .keyLength _ | .blockText _ | .blockLength _ | .create _ | .wrongAnswers _
  | .unchanged _ | .notRestored .. | .leaked _ | .demoNotRestored => false

/-- The entry tells of a handle that was refused. -/
def Entry.isRejection : Entry → Bool
  | .store (.rejected _) | .store (.alreadyGone _) => true
  | .store _ | .demoContext _ | .sampleOk _ => false

namespace Console

/-- The entries of the log that tell of a handle that was refused. -/
def rejections (console : Console) : Array Entry := console.log.filter Entry.isRejection

private theorem rejections_record {entry : Entry} (hentry : entry.isRejection = false)
    (console : Console) : (console.record entry).rejections = console.rejections := by
  unfold record rejections
  split
  · simp [hentry]
  · rfl

private theorem rejections_foldl_record {events : List StoreEvent}
    (hevents : ∀ event ∈ events, (Entry.store event).isRejection = false) (console : Console) :
    (events.foldl (fun console event => console.record (.store event)) console).rejections =
      console.rejections := by
  induction events generalizing console with
  | nil => rfl
  | cons event rest ih =>
      obtain ⟨hfirst, hrest⟩ := List.forall_mem_cons.mp hevents
      exact (ih hrest _).trans (rejections_record hfirst console)

private theorem rejections_answered {α : Type} {reply : Reply α}
    (hevents : ∀ event ∈ reply.events, (Entry.store event).isRejection = false)
    (console : Console) : (console.answered reply).rejections = console.rejections :=
  rejections_foldl_record hevents { console with store := reply.store }

/-- The second console comes after the first. Its store holds the keys, and no handle
was refused on the way. -/
structure Reaches (origin : Console) (keys : KeyMap) (console : Console) : Prop where
  holds : console.store.Holds keys
  rejections_eq : console.rejections = origin.rejections

variable {origin console : Console} {keys keys' : KeyMap}

theorem Reaches.record (hreaches : origin.Reaches keys console) {entry : Entry}
    (hentry : entry.isRejection = false) : origin.Reaches keys (console.record entry) where
  holds := by
    rw [(console.record_eq entry).1]
    exact hreaches.holds
  rejections_eq := (console.rejections_record hentry).trans hreaches.rejections_eq

/-- A reply that rejects nothing is added to what was done since the start. -/
theorem Reaches.answered {α : Type} (hreaches : origin.Reaches keys console) {reply : Reply α}
    (hholds : reply.store.Holds keys')
    (hevents : ∀ event ∈ reply.events, (Entry.store event).isRejection = false) :
    origin.Reaches keys' (console.answered reply) where
  holds := by rwa [store_answered]
  rejections_eq := (console.rejections_answered hevents).trans hreaches.rejections_eq

end Console

/-! ## Steps -/

namespace Action

variable {α β : Type} {before mid after failed keys : KeyMap} {h : Handle} {key : List UInt8}
  {c : Context}

/-- From a store that holds the keys `before`, the action leads to one that holds those
of `after`. If it fails it leads to one that holds those of `failed`, and it does not
fail because a handle is refused. -/
def Leads (action : Action α) (before after failed : KeyMap) : Prop :=
  ∀ origin console : Console, origin.Reaches before console →
    match action console with
    | .ok _ console' => origin.Reaches after console'
    | .error failure console' => origin.Reaches failed console' ∧ failure.isRejection = false

theorem Leads.pure (value : α) : Leads (Pure.pure value) keys keys failed :=
  fun _ _ hreaches => hreaches

/-- An action may fail with what is no rejection. -/
theorem Leads.throw {failure : Failure} (hfailure : failure.isRejection = false) :
    Leads (throw failure : Action α) keys after keys :=
  fun _ _ hreaches => ⟨hreaches, hfailure⟩

theorem Leads.get : Leads get keys keys failed := fun _ _ hreaches => hreaches

theorem Leads.print (line : String) : Leads (print line) keys keys failed :=
  fun _ _ hreaches => ⟨hreaches.holds, hreaches.rejections_eq⟩

theorem Leads.log {entry : Entry} (hentry : entry.isRejection = false) :
    Leads (log entry) keys keys failed :=
  fun _ _ hreaches => hreaches.record hentry

/-- One action after another: where the first one leads, the second one starts. A
failure of either ends both. -/
theorem Leads.bind {action : Action α} {next : α → Action β}
    (hfirst : action.Leads before mid failed)
    (hnext : ∀ value, (next value).Leads mid after failed) :
    (action >>= next).Leads before after failed := by
  intro origin console hreaches
  have hfirst := hfirst origin console hreaches
  rcases haction : action console with ⟨value, console'⟩ | ⟨failure, console'⟩
  · rw [haction] at hfirst
    rw [bind_of_ok haction]
    exact hnext value origin console' hfirst
  · rw [haction] at hfirst
    rw [bind_of_error haction]
    exact hfirst

theorem Leads.ofExcept {result : Except Failure α}
    (hresult : ∀ failure, result = .error failure → failure.isRejection = false) :
    (ofExcept result : Action α).Leads keys keys keys := by
  rcases result with failure | value
  · exact .throw (hresult failure rfl)
  · exact .pure value

/-- Both branches lead to the same place. -/
theorem Leads.ite {p : Prop} [Decidable p] {first second : Action α}
    (hfirst : first.Leads before after failed) (hsecond : second.Leads before after failed) :
    (if p then first else second).Leads before after failed := by
  split
  · exact hfirst
  · exact hsecond

/-- A check that stops the action where `p` holds. -/
theorem Leads.throw_if {p : Prop} [Decidable p] {failure : Failure} {rest : Unit → Action α}
    (hfailure : failure.isRejection = false) (hrest : (rest ()).Leads keys after keys) :
    (if p then MonadExcept.throw failure >>= rest else rest ()).Leads keys after keys :=
  .ite ((Leads.throw hfailure).bind fun _ => hrest) hrest

theorem Leads.throw_unless {p : Prop} [Decidable p] {failure : Failure} {rest : Unit → Action α}
    (hfailure : failure.isRejection = false) (hrest : (rest ()).Leads keys after keys) :
    (if p then rest () else MonadExcept.throw failure >>= rest).Leads keys after keys :=
  .ite hrest ((Leads.throw hfailure).bind fun _ => hrest)

/-! ### Requests -/

/-- A request that is answered from every store that holds the keys. -/
theorem Leads.ask {failure : StoreError → Failure} {request : Store → Reply α}
    (hrequest : ∀ s : Store, s.Holds before → ∃ value, (request s).result = .ok value ∧
      (request s).store.Holds after ∧
      ∀ event ∈ (request s).events, (Entry.store event).isRejection = false) :
    (ask failure request).Leads before after failed := by
  intro origin console hreaches
  obtain ⟨value, hok, hafter, hevents⟩ := hrequest console.store hreaches.holds
  rw [ask_of_ok hok]
  exact hreaches.answered hafter hevents

/-- A block is transformed by the context of the action itself. -/
theorem Leads.ask_apply (failure : StoreError → Failure) (d : Direction) (b : Block) :
    (Action.ask failure fun s => s.apply d h b).Leads (keys.insert h key) (keys.insert h key)
      failed := by
  refine .ask fun s hs => ?_
  have hmem : h ∈ keys.insert h key := Finmap.mem_insert.mpr (.inl rfl)
  obtain ⟨c, hget⟩ := Option.isSome_iff_exists.mp ((hs.isSome_get? h).mpr hmem)
  refine ⟨_, Store.result_apply_of_get? hget d b, by rwa [Store.store_apply], ?_⟩
  rw [Store.apply, hget]
  exact List.forall_mem_nil _

/-- The context of an action itself can be destroyed, and then it is as if it had not
been put in. -/
private theorem destroy_own {s : Store} (hs : s.Holds (keys.insert h key)) (hfresh : h ∉ keys) :
    (s.destroy h).result = .ok () ∧ (s.destroy h).store.Holds keys ∧
      ∀ event ∈ (s.destroy h).events, (Entry.store event).isRejection = false := by
  have hmem : h ∈ keys.insert h key := Finmap.mem_insert.mpr (.inl rfl)
  have hr := Store.destroy_destroyed s h
  have hok := hr.result_eq
  rw [if_pos ((hs.isSome_get? h).mpr hmem)] at hok
  have hholds := hs.destroy h
  rw [KeyMap.erase_insert hfresh] at hholds
  refine ⟨hok, hholds, ?_⟩
  generalize s.destroy h = r at hr hok
  cases hr with
  | rejected => cases hok
  | freed | retired => simp [Entry.isRejection]

/-- A context that the command created itself is there to be destroyed. -/
theorem Leads.ask_destroy (hfresh : h ∉ keys) (failure : StoreError → Failure) :
    (Action.ask failure fun s => s.destroy h).Leads (keys.insert h key) keys failed :=
  .ask fun _ hs => ⟨(), destroy_own hs hfresh⟩

/-- A lease of a context that is still there can be given back. -/
theorem Leads.ask_release (hfresh : h ∉ keys) (failure : StoreError → Failure) :
    (Action.ask failure fun s => s.release (.ofHandle h)).Leads (keys.insert h key) keys
      failed := by
  simp only [Store.release_eq_destroy]
  exact .ask_destroy hfresh failure

/-- A context is put in under a handle that names nothing yet, unless there is no room. -/
theorem Leads.bind_insert {next : Handle → Action α} (hkey : Context.ofBytes key = .ok c)
    (hnext : ∀ h, h ∉ keys → (next h).Leads (keys.insert h key) after keys) :
    ((Action.ask .create fun s => s.insert c) >>= next).Leads keys after keys := by
  intro origin console hreaches
  have hholds := hreaches.holds
  have hr := Store.insert_inserted hholds.wellFormed c
  have hevents : ∀ event ∈ (console.store.insert c).events,
      (Entry.store event).isRejection = false := by
    generalize console.store.insert c = r at hr
    cases hr with
    | full | exhausted | reused | appended => simp [Entry.isRejection]
  rcases hresult : (console.store.insert c).result with e | h
  · rw [bind_of_error (ask_of_error hresult)]
    rw [← hr.store_eq_of_error hresult] at hholds
    exact ⟨hreaches.answered hholds hevents, rfl⟩
  · rw [bind_of_ok (ask_of_ok hresult)]
    have hnew := hholds.inserted hkey hr hresult
    have hfresh := hholds.notMem_of_inserted hr hresult
    exact hnext h hfresh origin _ (hreaches.answered hnew hevents)

/-! ### Scopes -/

/-- A lease is asked for like a handle. -/
private theorem bind_leaseContext (next : Lease → Action α) :
    ((ask .create fun s => s.leaseContext c) >>= next) =
      (ask .create fun s => s.insert c) >>= fun h => next (.ofHandle h) := by
  funext console
  rcases hresult : (console.store.insert c).result with e | h
  · have hlease := Store.leaseContext_of_error hresult
    rw [bind_of_error (ask_of_error hlease), bind_of_error (ask_of_error hresult)]
    rfl
  · have hlease := Store.leaseContext_of_ok hresult
    rw [bind_of_ok (ask_of_ok hlease), bind_of_ok (ask_of_ok hresult)]
    rfl

theorem Leads.endScope (hfresh : h ∉ keys) :
    (endScope (.ofHandle h)).Leads (keys.insert h key) keys failed := by
  refine .ask fun s hs => ?_
  have hown := destroy_own hs hfresh
  have hreply : s.endScope (.ofHandle h) = s.destroy h := by
    simp only [Store.endScope, Lease.ofHandle, if_true, hown.1]
  rw [hreply]
  exact ⟨(), hown⟩

/-- If the action fails, the context of the lease is taken out. -/
theorem Leads.guarding {action : Action α} (haction : action.Leads before after (keys.insert h key))
    (hfresh : h ∉ keys) : (guarding (.ofHandle h) action).Leads before after keys := by
  intro origin console hreaches
  have haction := haction origin console hreaches
  rcases hresult : action console with ⟨value, console'⟩ | ⟨failure, console'⟩
  · rw [hresult] at haction
    rw [guarding_of_ok hresult]
    exact haction
  · rw [hresult] at haction
    obtain ⟨hfailed, hfailure⟩ := haction
    have hends : Leads _ (keys.insert h key) after keys :=
      (Leads.endScope hfresh).bind fun _ => .throw (α := α) hfailure
    rw [guarding_of_error hresult]
    exact hends origin console' hfailed

/-- An action with a context that lives just as long, and that the action leaves
alone. -/
theorem Leads.withLease {action : Handle → Action α} (hkey : Context.ofBytes key = .ok c)
    (haction : ∀ h, (action h).Leads (keys.insert h key) (keys.insert h key) (keys.insert h key)) :
    (withLease c action).Leads keys keys keys := by
  rw [Action.withLease, bind_leaseContext]
  refine .bind_insert hkey fun h hfresh => ?_
  refine ((haction h).guarding hfresh).bind fun value => ?_
  exact (Leads.endScope hfresh).bind fun _ => .pure value

end Action

/-! ## Commands -/

open Rijndael.Program.Action

/-- A text that is not read is told as such. -/
theorem leads_readText {α : Type} {ofBytes : List UInt8 → Except LengthError α}
    {hexFailure : Text.HexError → Failure} {lengthFailure : ℕ → Failure} {keys : KeyMap}
    (hhex : ∀ error, (hexFailure error).isRejection = false)
    (hlength : ∀ n, (lengthFailure n).isRejection = false) (text : String) :
    (ofExcept (readText ofBytes hexFailure lengthFailure text) : Action α).Leads
      keys keys keys := by
  refine .ofExcept fun failure herror => ?_
  rcases htext : Text.Hex.decodeCodes (codesOf text) with error | bytes
  · rw [readText_of_error htext] at herror
    cases herror
    exact hhex error
  · rw [readText_of_ok htext] at herror
    rcases hbytes : ofBytes bytes with error | value
    · rw [hbytes] at herror
      cases herror
      exact hlength bytes.length
    · rw [hbytes] at herror
      cases herror

variable (keys : KeyMap)

theorem leads_parseKey (text : String) :
    (ofExcept (parseKey text) : Action CipherKey).Leads keys keys keys := by
  rw [parseKey_eq]
  exact leads_readText (fun _ => rfl) (fun _ => rfl) text

theorem leads_parseBlock (text : String) :
    (ofExcept (parseBlock text) : Action Block).Leads keys keys keys := by
  rw [parseBlock_eq]
  exact leads_readText (fun _ => rfl) (fun _ => rfl) text

/-- The context of a transformation is leased, and gone at the end. -/
theorem transform_leads (d : Direction) (keyText blockText : String) :
    (transform d keyText blockText).Leads keys keys keys := by
  refine (leads_parseKey keys keyText).bind fun key => ?_
  refine (leads_parseBlock keys blockText).bind fun block => ?_
  rw [bind_leaseContext]
  refine .bind_insert (Context.ofBytes_toBytes key) fun h hfresh => ?_
  let own := keys.insert h key.toBytes
  have htransform : (ask .transform fun s => s.apply d h block).Leads own own own :=
    .ask_apply _ d block
  refine (htransform.guarding hfresh).bind fun result => ?_
  exact (Leads.ask_release hfresh .release).bind fun _ => .print _

/-- The context of a known answer is leased while the answer is tried. -/
theorem tryVector_leads (vector : KnownAnswer) : (tryVector vector).Leads keys keys keys := by
  refine (leads_parseKey keys vector.key).bind fun key => ?_
  refine (leads_parseBlock keys vector.block).bind fun block => ?_
  refine (leads_parseBlock keys vector.answer).bind fun expected => ?_
  refine .withLease (Context.ofBytes_toBytes key) fun h => ?_
  refine (Leads.ask_apply .transform .encrypt block).bind fun encrypted => ?_
  refine (Leads.ask_apply .transform .decrypt encrypted).bind fun decrypted => ?_
  exact (Leads.print _).bind fun _ => .pure _

theorem countWrong_leads (vectors : List KnownAnswer) :
    (countWrong vectors).Leads keys keys keys := by
  induction vectors with
  | nil => exact .pure 0
  | cons vector rest ih =>
      exact (tryVector_leads keys vector).bind fun met => ih.bind fun wrong => .pure _

theorem knownAnswers_leads : knownAnswers.Leads keys keys keys :=
  (countWrong_leads keys vectors).bind fun _ => .ite (.throw rfl) (.pure ())

/-- The context of a sample is leased, so that a failed check destroys it as well. -/
theorem checkSample_leads (generator : Vector UInt8 32) (size : KeySize) (sample : ℕ) :
    (checkSample generator size sample).Leads keys keys keys := by
  unfold checkSample
  refine .withLease (Context.ofBytes_toBytes _) fun h => ?_
  refine (Leads.ask_apply .transform .encrypt _).bind fun encrypted => ?_
  refine .throw_if rfl ?_
  refine (Leads.ask_apply .transform .decrypt encrypted).bind fun decrypted => ?_
  exact .throw_if rfl (.log rfl)

theorem checkSamples_leads (generator : Vector UInt8 32) (size : KeySize) (sample count : ℕ) :
    (checkSamples generator size sample count).Leads keys keys keys := by
  induction count generalizing sample with
  | zero => exact .pure ()
  | succ count ih => exact (checkSample_leads keys generator size sample).bind fun _ => ih _

theorem check_leads (generator : Vector UInt8 32) (samples : ℕ) (size : KeySize) :
    (check generator samples size).Leads keys keys keys := by
  refine (checkSamples_leads keys generator size 0 samples).bind fun _ => ?_
  exact Leads.get.bind fun console => .throw_unless rfl (.print _)

/-- There is no scope around the demonstration. But nothing fails between the creation of
the context and its destruction. -/
theorem demo_leads (generator : Vector UInt8 32) : (demo generator).Leads keys keys keys := by
  refine .bind_insert (Context.ofBytes_toBytes _) fun h hfresh => ?_
  refine (Leads.log rfl).bind fun _ => ?_
  refine (Leads.ask_apply .transform .encrypt _).bind fun encrypted => ?_
  refine (Leads.ask_apply .transform .decrypt _).bind fun decrypted => ?_
  refine (Leads.ask_destroy hfresh .destroy).bind fun _ => ?_
  iterate 5 refine (Leads.print _).bind fun _ => ?_
  exact .ite (.throw rfl) (.pure ())

/-- Every command leaves the keys as it found them. -/
theorem Command.action_leads (random : Vector UInt8 32) (command : Command) :
    (command.action random).Leads keys keys keys := by
  cases command with
  | transform d keyText blockText => exact transform_leads keys d keyText blockText
  | knownAnswers => exact knownAnswers_leads keys
  | check samples seed size => exact check_leads keys _ samples size
  | demo seed => exact demo_leads keys _

/-! ## Runs -/

theorem Action.Leads.ends {α : Type} {action : Action α} {keys : KeyMap} {console : Console}
    (haction : action.Leads keys keys keys) (hholds : console.store.Holds keys) :
    console.Reaches keys (action.after console) ∧
      ∀ failure ∈ action.failure? console, failure.isRejection = false := by
  have hend := haction console console ⟨hholds, rfl⟩
  unfold Action.after Action.failure?
  rcases hresult : action console with ⟨value, console'⟩ | ⟨failure, console'⟩
  · rw [hresult] at hend
    exact ⟨hend, nofun⟩
  · rw [hresult] at hend
    refine ⟨hend.1, ?_⟩
    rintro _ ⟨⟩
    exact hend.2

/-- Two stores that hold the same keys have the same context behind each handle. -/
private theorem get?_eq_of_holds {s t : Store} {keys : KeyMap} (hs : s.Holds keys)
    (ht : t.Holds keys) (h : Handle) : t.get? h = s.get? h := by
  rcases hlookup : keys.lookup h with _ | key
  · have hnotMem := Finmap.lookup_eq_none.mp hlookup
    rw [hs.get?_of_notMem h hnotMem, ht.get?_of_notMem h hnotMem]
  · obtain ⟨c, hc, hget⟩ := hs.get?_of_lookup h key hlookup
    obtain ⟨c', hc', hget'⟩ := ht.get?_of_lookup h key hlookup
    rw [hc] at hc'
    cases hc'
    rw [hget, hget']

/-- Whatever was asked of a store before, with contexts live or not and with any limit, a
command leaves it with the same keys behind the same handles, however it ends. No handle
is refused on the way: there is no such entry in the log, and no such failure. -/
theorem Command.neutral_on_run (limit : Option ℕ) (requests : List Request) (command : Command)
    (random : Vector UInt8 32) (filter : LogFilter) (printed : Array String) (log : Array Entry) :
    let run := (Session.ofStore (.empty limit)).run requests
    let keys := (Ledger.empty.replay (requests.zip run.2)).keys
    let console : Console := ⟨run.1.store, filter, printed, log⟩
    let action := command.action random
    run.1.store.AnswersAs keys ∧
      (action.after console).store.AnswersAs keys ∧
      (∀ h, (action.after console).store.get? h = run.1.store.get? h) ∧
      (action.after console).rejections = console.rejections ∧
      ∀ e, action.failure? console ≠ some (.transform e) ∧
        action.failure? console ≠ some (.release e) ∧
        action.failure? console ≠ some (.destroy e) := by
  intro run keys console action
  have hholds : console.store.Holds keys := ((Session.matches_empty limit).run requests).holds
  obtain ⟨hreaches, hfailure⟩ := (command.action_leads keys random).ends hholds
  refine ⟨hholds.answersAs, hreaches.holds.answersAs, get?_eq_of_holds hholds hreaches.holds,
    hreaches.rejections_eq, fun e => ?_⟩
  refine ⟨fun hfails => ?_, fun hfails => ?_, fun hfails => ?_⟩
  all_goals cases hfailure _ hfails

end Program

end Rijndael
