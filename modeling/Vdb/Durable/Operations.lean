import Vdb.Durable.Solo

/-!
# What the operations make of a map

The log has one record for each mutation that is not in vain, so that with calls one at a time it
makes of the points what the calls themselves make of them, in the order in which they were made.

* `Request.perform` : what a call of a mutator makes of the map; ids are given out in order.
* `Chronicle.Carries.run` : the records that have been logged do what the calls do that have been
  made, but for one that has not logged its record yet.
-/

namespace Vdb

open Metadata Database

theorem Metadata.Row.attrsOf_of_length {rec : Record} {n : ℕ} (h : rec.attrs.length = n) :
    Row.attrsOf n rec = rec.attrs.map AttrValue.carried := by
  subst h
  refine List.ext_getElem (by simp [Row.attrsOf]) fun a h1 h2 => ?_
  have ha : a < rec.attrs.length := by simpa using h2
  simp [Row.attrsOf, Record.attr, ha]

namespace Durable

variable {ι δ : Type}

/-- What a call of a mutator makes of the map; the ids are given out from `first` on. -/
def Request.perform (n : ℕ) (first : ExternalId) (s : Contents) : Request → Contents
  | .insert vec rec =>
    (s.mint (first + s.minted.length)).put (first + s.minted.length) (some (.of n vec rec))
  | .remove x => s.put x none
  | .update x vec rec => s.put x ((s.points x).map (Point.updated n vec rec))
  | .setMetadata x rec => s.put x ((s.points x).map (Point.withRecord n rec))

/-- What calls make of a map, in their order. -/
def performed (n : ℕ) (first : ExternalId) (base : Logical) (reqs : List Request) : Contents :=
  reqs.foldl (Request.perform n first) { points := base }

/-- The call that an action starts, if it is one of a mutator. -/
def Action.request : Action → Option Request
  | .invoke req => some req
  | .checkpoint | .sync | .run _ _ => none

/-- The mutators that a run calls. -/
def issued (as : List Action) : List Request := as.filterMap Action.request

/-- The request of a call that has not run its prefix. -/
def Pc.request : Pc δ → Option Request
  | .lookUp req _ => some req
  | .serialPrefix req => some req
  | _ => none

/-! ### One call -/

section

variable {n : ℕ} {first : ExternalId} {s : Contents} {req : Request} {ext : ExternalId}

/-- A call on an id without a point is in vain. -/
theorem Request.perform_absent (hreq : req.looksUp = some ext) (hnone : s.points ext = none) :
    req.perform n first s = s := by
  have hput : ∀ p : Option Point, p = none → s.put ext p = s := by
    rintro p rfl
    unfold Contents.put
    rw [← hnone, Function.update_eq_self]
  cases req with
  | insert vec rec => cases hreq
  | remove x =>
    cases hreq
    exact hput _ rfl
  | update x vec rec =>
    cases hreq
    exact hput _ (by rw [hnone]; rfl)
  | setMetadata x rec =>
    cases hreq
    exact hput _ (by rw [hnone]; rfl)

variable [ColumnIndex ι] {config : VDBConfig} {db : VDB ι} {es : List Entry} {m : Mutation}

theorem logical_none_of_absent (h : db.contains ext = false) : db.logical ext = none := by
  rw [← Option.not_isSome_iff_eq_none, VDB.logical_isSome]
  simpa [VDB.contains] using h

/-- An update without a record finds no row. -/
theorem Request.absent_of_gone (h : req.mutation db = none) :
    ∃ ext, req.looksUp = some ext ∧ db.logical ext = none := by
  cases req with
  | update x vec rec =>
    cases rec with
    | some rec => cases h
    | none =>
      have hnone : db.getMetadata x = none := Option.map_eq_none_iff.1 h
      refine ⟨x, rfl, ?_⟩
      unfold VDB.logical
      rw [Option.map_eq_none_iff.1 hnone]
      rfl
  | _ => cases h

/-- The row of an id, written with another vector. -/
theorem of_getMetadata (h : db.Holds (fun _ c rows => c.Ok rows) config es) {rec : Record}
    (hrec : db.getMetadata ext = some rec) (vec : Vec) :
    db.logical ext ≠ none ∧ ∀ p, db.logical ext = some p →
      Point.of config.schema.length vec rec = p.withVec vec := by
  obtain ⟨i, hi, rfl⟩ := Option.map_eq_some_iff.1 hrec
  have hlogical : db.logical ext = some (db.pointAt i) := by
    unfold VDB.logical
    rw [hi]
    rfl
  refine ⟨by rw [hlogical]; exact nofun, fun p hp => ?_⟩
  cases hlogical.symm.trans hp
  have hlength : (db.metadata.getRow i).attrs.length = config.schema.length := by
    rw [MetadataStore.getRow, List.length_map, h.metadata.columns]
  unfold Point.of Point.withVec VDB.pointAt
  rw [Row.attrsOf_of_length hlength]

/-- **A record** does what its call does. -/
theorem Request.perform_logged (h : db.Holds (fun _ c rows => c.Ok rows) config es)
    (hpoints : db.logical = s.points) (hnext : db.nextExtId = first + s.minted.length)
    (hroom : db.nextExtId + 1 < 2 ^ 64) (hm : req.mutation db = some m) (lsn : ℕ) :
    replayed WalRecord.key (WalRecord.effect config.schema.length) s.points [m.toRecord lsn] =
        (req.perform config.schema.length first s).points ∧
      (req.reserved db).nextExtId =
        first + (req.perform config.schema.length first s).minted.length ∧
      ∀ x ∈ (req.perform config.schema.length first s).minted,
        x ∈ s.minted ∨ (m.toRecord lsn).minted = some x := by
  rw [replayed_single (m.key_toRecord lsn)]
  cases req with
  | insert vec rec =>
    cases hm
    refine ⟨?_, ?_, fun x hx => ?_⟩
    · rw [hnext]
      rfl
    · dsimp only [Request.reserved, VDB.reserveId]
      rw [Nat.mod_eq_of_lt hroom, hnext]
      rfl
    · rcases List.mem_cons.1 hx with rfl | hx
      · exact .inr (congrArg some hnext)
      · exact .inl hx
  | remove x =>
    cases hm
    exact ⟨rfl, hnext, fun x hx => .inl hx⟩
  | update x vec rec =>
    obtain ⟨effective, heffective, rfl⟩ := Option.map_eq_some_iff.1 hm
    refine ⟨?_, hnext, fun x hx => .inl hx⟩
    change Function.update s.points x ((s.points x).map fun _ => .of _ vec effective) =
      Function.update s.points x ((s.points x).map (Point.updated _ vec rec))
    -- an update that carries no metadata has logged what the row had
    cases rec with
    | some rec =>
      cases heffective
      rfl
    | none =>
      obtain ⟨-, hpoint⟩ := of_getMetadata h heffective vec
      rw [hpoints] at hpoint
      cases hx : s.points x with
      | none => rfl
      | some p =>
        rw [Option.map_some, Option.map_some, hpoint p hx]
        rfl
  | setMetadata x rec =>
    cases hm
    exact ⟨rfl, hnext, fun x hx => .inl hx⟩

end

/-! ### Runs -/

namespace Chronicle

variable [ColumnIndex ι] [Distance δ] {K : Kernels δ} {config : VDBConfig} {base : Logical}
  {first : ExternalId} {c : Chronicle ι δ} {a : Action} {front reqs : List Request}

/-- The log makes the map of the contents, and gives out their ids; `next` is the next one. -/
structure Makes (config : VDBConfig) (first : ExternalId) (log : List WalRecord)
    (next : ExternalId) (s : Contents) : Prop where
  points : replayed WalRecord.key (WalRecord.effect config.schema.length) (fun _ => none) log =
    s.points
  next : next = first + s.minted.length
  minted : ∀ x ∈ s.minted, x ∈ log.filterMap WalRecord.minted

/-- What holds between the sections of calls one at a time that have made these requests, of which
those in front have ended. -/
structure Carries (config : VDBConfig) (first : ExternalId) (base : Logical)
    (front : List Request) (c : Chronicle ι δ) (reqs : List Request) : Prop where
  solo : c.system.Solo
  looksUp : ∀ req ext, .lookUp req ext ∈ c.system.calls → req.looksUp = some ext
  makes : ∃ done, front <+: done ∧ reqs = done ++ c.system.calls.filterMap Pc.request ∧
    Makes config first c.log c.system.durable.db.nextExtId
      (performed config.schema.length first base done)

omit [ColumnIndex ι] [Distance δ] in
theorem inProgress_of_request {pc : Pc δ} {req : Request} (h : pc.request = some req) :
    pc.InProgress := by
  cases pc with
  | returned | threw => cases h
  | _ => trivial

omit [ColumnIndex ι] in
/-- Entries that are about no point and give out no id. -/
theorem Makes.note {log : List WalRecord} {next : ExternalId} {s : Contents} {r : WalRecord}
    (h : Makes config first log next s) (hkey : r.key = none) :
    Makes config first (log ++ [r]) next s where
  points := by
    rw [← h.points]
    funext x
    rw [replayed_append, replayed_none hkey]
  next := h.next
  minted x hx := by
    rw [List.filterMap_append]
    exact List.mem_append_left _ (h.minted x hx)

omit [ColumnIndex ι] [Distance δ] in
theorem performed_concat (n : ℕ) (first : ExternalId) (base : Logical) (done : List Request)
    (req : Request) : performed n first base (done ++ [req]) =
      req.perform n first (performed n first base done) := by
  unfold performed
  rw [List.foldl_append]
  rfl

omit [ColumnIndex ι] [Distance δ] in
/-- One section of the call in progress, given what it does to the log. -/
theorem Carries.section (h : c.Carries config first base front reqs) {i : ℕ} {pc pc' : Pc δ}
    {d' : DurableVDB ι} {r : Option WalRecord} (hi : c.system.calls[i]? = some pc)
    (hpc : pc.InProgress) (hsolo : (⟨d', c.system.calls.set i pc'⟩ : System ι δ).Solo)
    (hlook : ∀ req ext, pc' = .lookUp req ext → pc = pc')
    (hmakes : ∀ s, Makes config first c.log c.system.durable.db.nextExtId s →
      (pc'.request = pc.request ∧ Makes config first (c.log ++ r.toList) d'.db.nextExtId s) ∨
        ∃ req, pc.request = some req ∧ pc'.request = none ∧
          Makes config first (c.log ++ r.toList) d'.db.nextExtId
            (req.perform config.schema.length first s)) :
    Carries config first base front ⟨⟨d', c.system.calls.set i pc'⟩, c.log ++ r.toList⟩ reqs := by
  obtain ⟨done, hfront, hreqs, hdone⟩ := h.makes
  have hset := h.solo.filterMap_set (fun _ _ => inProgress_of_request) hi hpc pc'
  rw [h.solo.filterMap (fun _ _ => inProgress_of_request) hi hpc] at hreqs
  refine ⟨hsolo, fun req ext hmem => ?_, ?_⟩
  · rcases List.mem_or_eq_of_mem_set hmem with hmem | hnew
    · exact h.looksUp req ext hmem
    · refine h.looksUp req ext ?_
      rw [hnew, ← hlook req ext hnew.symm]
      exact List.mem_of_getElem? hi
  · rcases hmakes _ hdone with ⟨hsame, hmakes⟩ | ⟨req, hreq, hnone, hmakes⟩
    · exact ⟨done, hfront, by rw [hset, hsame, hreqs], hmakes⟩
    · refine ⟨done ++ [req], hfront.trans (List.prefix_append ..), ?_, by rwa [performed_concat]⟩
      rw [hset, hnone, hreqs, hreq]
      exact (List.append_nil _).symm

/-- A section of the call in progress that returns. -/
theorem Carries.moves (h : c.Carries config first base front reqs) (hb : Backed config c) {i : ℕ}
    {env : Env} {pc pc' : Pc δ} {d' : DurableVDB ι} {r : Option WalRecord}
    (hi : c.system.calls[i]? = some pc) (hpc : pc.InProgress)
    (hsolo : (⟨d', c.system.calls.set i pc'⟩ : System ι δ).Solo)
    (hcounts : c.system.durable.db.nextExtId + 1 < 2 ^ 64)
    (hm : c.system.durable.Moves K c.system.writing env pc pc' d' r) :
    Carries config first base front ⟨⟨d', c.system.calls.set i pc'⟩, c.log ++ r.toList⟩ reqs := by
  have hmem := List.mem_of_getElem? hi
  obtain ⟨sys, es, hdb, hheld, -⟩ := hb.ok.ledger.held
  -- without a task the database is what the log says
  have hidle : pc.task = none → ∀ x, c.system.durable.db.logical x =
      replayed WalRecord.key (WalRecord.effect config.schema.length) (fun _ => none) c.log x := by
    intro htask x
    refine hb.ok.faithful.settled x ?_
    rw [h.solo.tasks hi hpc, htask]
    exact nofun
  -- a section that neither runs a prefix nor logs
  have hquiet : r = none → d'.db.nextExtId = c.system.durable.db.nextExtId →
      pc' = pc ∨ pc.request = none ∧ pc'.request = none →
      Carries config first base front ⟨⟨d', c.system.calls.set i pc'⟩, c.log ++ r.toList⟩ reqs := by
    rintro rfl hnext hrequest
    have hsame : pc'.request = pc.request := by
      rcases hrequest with rfl | ⟨hnone, hnone'⟩
      · rfl
      · rw [hnone, hnone']
    refine h.section hi hpc hsolo (fun req ext hlook => ?_) fun s hs => .inl ⟨hsame, ?_⟩
    · rcases hrequest with rfl | ⟨-, hnone'⟩
      · rfl
      · rw [hlook] at hnone'
        cases hnone'
    · rw [Option.toList_none, List.append_nil, hnext]
      exact hs
  have hbehind : ∀ (d : DurableVDB ι) (job : Job), (d.behindApply job : Pc δ).request = none := by
    intro d job
    unfold DurableVDB.behindApply
    split <;> rfl
  cases hm with
  | stays => exact hquiet rfl rfl (.inl rfl)
  | found req ext hfound =>
    refine h.section hi hpc hsolo (fun req' ext' hlook => ?_) fun s hs => .inl ⟨rfl, ?_⟩
    · cases hlook
    · rw [Option.toList_none, List.append_nil]
      exact hs
  | absent req ext habsent =>
    refine h.section hi hpc hsolo (fun req' ext' hlook => ?_) fun s hs => .inr ⟨req, rfl, rfl, ?_⟩
    · cases hlook
    · have hnone : s.points ext = none := by
        rw [← hs.points, ← hidle rfl ext]
        exact logical_none_of_absent habsent
      rw [Option.toList_none, List.append_nil,
        Request.perform_absent (h.looksUp req ext hmem) hnone]
      exact hs
  | gone req hw hmut =>
    refine h.section hi hpc hsolo (fun req' ext' hlook => ?_) fun s hs => .inr ⟨req, rfl, rfl, ?_⟩
    · cases hlook
    · obtain ⟨ext, hlooksUp, hnone⟩ := Request.absent_of_gone hmut
      rw [hidle rfl ext, hs.points] at hnone
      rw [Option.toList_none, List.append_nil, Request.perform_absent hlooksUp hnone]
      exact hs
  | logs req job wal ops hw hmut hlsn happ =>
    have hrequest : (c.system.durable.behindPrefix job : Pc δ).request = none := by
      unfold DurableVDB.behindPrefix
      split <;> rfl
    refine h.section hi hpc hsolo (fun req ext hlook => ?_) fun s hs =>
      .inr ⟨req, rfl, hrequest, ?_⟩
    · rw [hlook] at hrequest
      cases hrequest
    · have hpoints : c.system.durable.db.logical = s.points := by
        rw [← hs.points]
        exact funext (hidle rfl)
      obtain ⟨hreplayed, hnext, hminted⟩ := Request.perform_logged
        (hdb ▸ hheld.holds) hpoints hs.next hcounts hmut job.lsn
      refine ⟨?_, hnext, fun x hx => ?_⟩
      · rw [← hreplayed, ← hs.points]
        exact funext (replayed_append _ _ _)
      · rw [Option.toList_some, List.filterMap_append]
        rcases hminted x hx with hold | hnew
        · exact List.mem_append_left _ (hs.minted x hold)
        · exact List.mem_append_right _ (List.mem_filterMap.2 ⟨_, List.mem_singleton_self _, hnew⟩)
  | logsCheckpoint reply lsn wal happ =>
    refine h.section hi hpc hsolo (fun req' ext' hlook => ?_) fun s hs => .inl ⟨rfl, hs.note rfl⟩
    cases hlook
  | applies job call db happ =>
    have halike := DurableVDB.alike_applyStart (δ := δ) c.system.durable job.mutation
    rw [happ] at halike
    refine hquiet rfl halike.nextExtId (.inr ⟨rfl, ?_⟩)
    cases call with
    | none => exact hbehind _ job
    | some call => rfl
  | continues job call next db happ =>
    have halike := DurableVDB.alike_applyNext (K := K) c.system.durable job.mutation.ext call
      fun vec rec hcall => hb.stored.ext_lt (hcall ▸ hmem)
    rw [happ] at halike
    refine hquiet rfl halike.nextExtId (.inr ⟨rfl, ?_⟩)
    cases next with
    | none => exact hbehind _ job
    | some call => rfl
  | finishes job => exact hquiet rfl rfl (.inr ⟨rfl, by split_ifs <;> rfl⟩)
  | _ => exact hquiet rfl rfl (.inr ⟨rfl, rfl⟩)

/-- **One action** of calls one at a time. -/
theorem Carries.act (h : c.Carries config first base front reqs) (hb : Backed config c)
    (hturn : c.system.InTurn K a) (hreturns : ¬ (c.system.act K a).Thrown) :
    (c.act K a).Carries config first base front (reqs ++ a.request.toList) := by
  have hsolo := h.solo.act (K := K) hturn.alone
  -- a call that starts has all the others behind it
  have hstarts : ∀ (pc : Pc δ) (req : Option Request), pc.request = req →
      (∀ req ext, pc = .lookUp req ext → req.looksUp = some ext) →
      (∀ pc ∈ c.system.calls, ¬ pc.InProgress) →
      (⟨c.system.durable, c.system.calls ++ [pc]⟩ : System ι δ).Solo →
      Carries config first base front ⟨⟨c.system.durable, c.system.calls ++ [pc]⟩,
        c.log ++ (none : Option WalRecord).toList⟩ (reqs ++ req.toList) := by
    rintro pc _ rfl hlook hended hsolo
    obtain ⟨done, hfront, hreqs, hdone⟩ := h.makes
    have hnone : c.system.calls.filterMap Pc.request = [] := by
      refine List.filterMap_eq_nil_iff.2 fun q hq => ?_
      cases hreq : q.request with
      | none => rfl
      | some req => exact absurd (inProgress_of_request hreq) (hended q hq)
    rw [hnone, List.append_nil] at hreqs
    rw [Option.toList_none, List.append_nil]
    refine ⟨hsolo, fun req ext hmem => ?_, done, hfront, ?_, hdone⟩
    · rcases List.mem_append.1 hmem with hmem | hmem
      · exact h.looksUp req ext hmem
      · exact hlook req ext (List.mem_singleton.1 hmem).symm
    · dsimp only
      rw [List.filterMap_append, hnone, hreqs, List.nil_append]
      cases hreq : pc.request with
      | none => rw [List.filterMap_cons_none hreq]; rfl
      | some req => rw [List.filterMap_cons_some hreq]; rfl
  unfold Chronicle.act
  cases a with
  | invoke req =>
    refine hstarts req.start _ ?_ (fun req' ext hstart => ?_) hturn.alone hsolo
    · cases req <;> rfl
    · cases req <;> cases hstart <;> rfl
  | checkpoint => exact hstarts _ none rfl nofun hturn.alone hsolo
  | sync => exact hstarts _ none rfl nofun hturn.alone hsolo
  | run i env =>
    rw [show Action.request (.run i env) = none from rfl, Option.toList_none, List.append_nil]
    have hran := c.system.act_ran K i env
    generalize c.system.act K (.run i env) = s', c.system.logged (.run i env) = r
      at hran hsolo hreturns ⊢
    cases hran with
    | idles =>
      rw [Option.toList_none, List.append_nil]
      exact h
    | throws pc e d' hi ht =>
      exact absurd ⟨e, List.mem_set (List.getElem?_eq_some_iff.1 hi).1 _⟩ hreturns
    | moves pc pc' d' r hi hm =>
      by_cases hpc : pc.InProgress
      · exact h.moves hb hi hpc hsolo hturn.counts hm
      · obtain ⟨rfl, rfl, rfl⟩ := System.ended_of_moves hm hpc
        obtain ⟨hlt, hget⟩ := List.getElem?_eq_some_iff.1 hi
        rw [Option.toList_none, List.append_nil, ← hget, List.set_getElem_self hlt]
        exact h

/-- **A run** of calls one at a time. -/
theorem Carries.run {as : List Action} (h : c.Carries config first base front reqs)
    (hb : Backed config c)
    (hrun : Run.Along (Chronicle.act K) (fun c a => c.system.GoesOn K a) c as) :
    (as.foldl (Chronicle.act K) c).Carries config first base front (reqs ++ issued as) := by
  induction as generalizing c reqs with
  | nil =>
    rw [issued, List.filterMap_nil, List.append_nil]
    exact h
  | cons a as ih =>
    obtain ⟨ha, hrun⟩ := hrun
    have hissued : reqs ++ issued (a :: as) = reqs ++ a.request.toList ++ issued as := by
      rw [List.append_assoc]
      cases hreq : a.request with
      | none => rw [issued, List.filterMap_cons_none hreq]; rfl
      | some req => rw [issued, List.filterMap_cons_some hreq]; rfl
    rw [hissued]
    exact ih (h.act hb ha.turn ha.returns) (backed_goesOn hb ha) hrun

/-- All calls have ended. -/
def Idle (c : Chronicle ι δ) : Prop := ∀ pc ∈ c.system.calls, ¬ pc.InProgress

omit [ColumnIndex ι] [Distance δ] in
/-- When all calls have ended, all that has been called is done. -/
theorem Carries.idle (h : c.Carries config first base front reqs) (hidle : c.Idle) :
    c.Carries config first base reqs reqs ∧ Makes config first c.log c.system.durable.db.nextExtId
      (performed config.schema.length first base reqs) := by
  obtain ⟨done, -, hreqs, hdone⟩ := h.makes
  have hnone : c.system.calls.filterMap Pc.request = [] := by
    refine List.filterMap_eq_nil_iff.2 fun q hq => ?_
    cases hreq : q.request with
    | none => rfl
    | some req => exact absurd (inProgress_of_request hreq) (hidle q hq)
  rw [hnone, List.append_nil] at hreqs
  subst hreqs
  exact ⟨⟨h.solo, h.looksUp, reqs, List.prefix_rfl, by rw [hnone, List.append_nil], hdone⟩, hdone⟩

end Chronicle

end Durable

end Vdb
