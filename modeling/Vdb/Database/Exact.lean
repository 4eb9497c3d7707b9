import Vdb.Database.Search

/-!
# Exact search

A search over a Brute index asks for as many rows more than it wants as there are rows that are not
live, and so reports the nearest live rows, each once.  This rests on `deleted_count_`, which is
right as long as no compaction drops a pending node.

* `System.searches_exact` : what a search reports, in every state that calls and reloads reach.
* `System.dropped_found` : a compaction drops a pending node, and a search reports an id that is not
  live.
-/

namespace Vdb

namespace Database

open Metadata Selection
open VDB (Lives)

namespace VDB

variable {ι δ : Type} [ColumnIndex ι] [Distance δ] {K : Kernels δ} {config : VDBConfig} {db : VDB ι}
  {es : List Entry} {query : Vec} {k lsn : ℕ} {i : InternalId} {x : ExternalId}

/-- What is known of the columns: their sizes. -/
def SizedBy (_ : ℕ) (c : Column ι) (rows : List ColRow) : Prop := c.Sized rows.length

omit [Distance δ] in
/-- **A reload** that returns keeps every entry. -/
theorem Holds.reload {J : ℕ → Column ι → List ColRow → Prop}
    (hsized : ∀ a c rows, J a c rows → c.Sized rows.length)
    (hgot : ∀ {a c rows} spec, config.schema[a]? = some spec → J a c rows →
      J a (c.reread (Column.new spec)).clearDerived (Column.unpublished rows))
    (hR : ∀ {a c c' rows i v}, J a c rows → rows[i]? = some (false, v) →
      c.rebuildRow i = .ok () c' → J a c' (rows.set i (true, v)))
    (h : db.Holds J config es) (hw : db.WordSized lsn) (hrebuilds : db.Rebuilds) :
    (db.reload lsn).Holds J config es ∧ (db.reload lsn).nextExtId = db.nextExtId := by
  obtain rfl : db.config = config := h.configured
  rcases reload_cases hsized hgot hR h.metadata h.kind h.sound h.ids h.deleted h.vectors hw
    hrebuilds
    with hsame | ⟨m, hreload, hstore⟩
  · exact ⟨hsame.symm ▸ h, congrArg VDB.nextExtId hsame⟩
  · rw [hreload]
    refine ⟨?_, rfl⟩
    exact
    { configured := rfl, kind := (Index.kind_undrawn _).trans h.kind
      sound := h.sound.undrawn, size := (Index.size_undrawn _).trans h.size
      ids := h.ids, deleted := h.deleted, vectors := h.vectors, metadata := hstore
      map := fun x i => by
        rw [← liveMap_iff (fun x i j hi hj => h.unique hi hj) fun _ _ he =>
          getD_deleted h.deleted he, ← h.ids]
      liveCount := h.liveCount, deletedCount := h.deletedCount }

/-! ### The nearest live rows -/

/-- The hits are the `k` nearest points of the database, each once, the nearest first. -/
structure Nearest (K : Kernels δ) (db : VDB ι) (query : Vec) (k : ℕ) (hits : List (Hit δ)) :
    Prop where
  count : hits.length = min k db.liveCount
  distinct : (hits.map Hit.id).Nodup
  sorted : hits.Pairwise fun a b => a.dist ≤ b.dist
  own : ∀ hit ∈ hits, ∃ p, db.logical hit.id = some p ∧
    hit.dist = K.dist db.config.metric query p.vec ∧ hit.payload = p.payload
  nearest : ∀ x p, db.logical x = some p → x ∉ hits.map Hit.id →
    ∀ hit ∈ hits, hit.dist ≤ K.dist db.config.metric query p.vec

omit [ColumnIndex ι] [Distance δ] in
theorem mem_liveIds {J : ℕ → Column ι → List ColRow → Prop} (h : db.Holds J config es) :
    i ∈ db.liveIds ↔ ∃ e, es[i]? = some e ∧ e.isLive = true := by
  rw [liveIds_eq h.ids h.deleted]
  exact mem_liveNumbers

omit [ColumnIndex ι] [Distance δ] in
theorem length_liveIds {J : ℕ → Column ι → List ColRow → Prop} (h : db.Holds J config es) :
    db.liveIds.length = db.liveCount ∧ db.index.size - db.liveIds.length = db.deletedCount := by
  have hlive : db.liveIds.length = es.countP Entry.isLive := by
    rw [liveIds_eq h.ids h.deleted, List.countP_eq_length_filter, ← map_liveNumbers,
      List.length_map]
  refine ⟨hlive.trans h.liveCount.symm, ?_⟩
  have hsplit := List.length_eq_countP_add_countP Entry.isLive (l := es)
  have hnot : List.countP (fun e => decide ¬ Entry.isLive e = true) es =
      es.countP fun e => !e.isLive := List.countP_congr fun e _ => by simp
  rw [hnot] at hsplit
  rw [hlive, h.size, h.deletedCount]
  omega

/-- **A search** reports the nearest live rows. -/
theorem Holds.nearest {J : ℕ → Column ι → List ColRow → Prop} (h : db.Holds J config es)
    (hs : db.Shaped config) (query : Vec) (hk : 0 < k) (hmax : k ≤ maxSize hitBytes)
    (hroom : k + db.deletedCount < 2 ^ 64) :
    ∃ hits, db.searchHits K query k = .ok hits ∧ db.search K query k = .ok (hits.map Hit.id) ∧
      db.Nearest K query k hits := by
  obtain ⟨hlive, hdead⟩ := length_liveIds h
  have hrange : (List.range db.index.size).filter (fun i => !db.deleted.getD i false) =
      db.liveIds := by
    unfold VDB.liveIds
    rw [h.size, h.ids, List.length_map]
  obtain ⟨found, hfound, hselects⟩ := hs.search_filter (K := K) (k := k)
    (n := min ((k + db.deletedCount) % 2 ^ 64) db.index.size) query (.of_eq hrange)
    (by rw [hdead, Nat.mod_eq_of_lt hroom]; omega)
  set chosen := (found.filter fun e => !db.deleted.getD e.1 false).take k with hchosen
  have hcollect : db.collect K query k = .ok chosen := by
    unfold VDB.collect
    rw [hfound]
  -- a chosen row is a live one, and has its id alone
  have hrow : ∀ e ∈ chosen, ∃ i ∈ db.liveIds, e = db.candidate K query i ∧
      db.extToInt (db.intToExt.getD e.1 0) = some i := by
    intro e he
    obtain ⟨i, hi, rfl⟩ := List.mem_map.1 (hselects.subset he)
    obtain ⟨en, hen, hl⟩ := (mem_liveIds h).1 hi
    refine ⟨i, hi, rfl, (h.map _ i).2 ⟨en, hen, hl, ?_⟩⟩
    rw [h.ids]
    exact (MetadataStore.getD_of_getElem (by rw [List.getElem?_map]; exact congrArg _ hen) 0).symm
  have hids : (chosen.map db.hitOf).map Hit.id = chosen.map db.extOf := by
    rw [List.map_map]
    rfl
  refine ⟨chosen.map db.hitOf, ?_, ?_, ?_⟩
  · rw [searchHits, if_neg hk.ne', report_ok hmax, hcollect]
    rfl
  · have hmaxIds : maxSize hitBytes ≤ maxSize idBytes := by decide
    rw [search, if_neg hk.ne', report_ok (hmax.trans hmaxIds), hcollect, hids]
    rfl
  · exact
    { count := by rw [List.length_map, hselects.length, List.length_map, hlive]
      distinct := by
        rw [hids]
        have hnodup : (db.liveIds.map (db.candidate K query)).Nodup :=
          (List.nodup_range.filter _).map fun i j hij => congrArg Prod.fst hij
        refine (hselects.nodup hnodup).map_on fun e he e' he' hext => ?_
        obtain ⟨i, -, rfl, hi⟩ := hrow e he
        obtain ⟨j, -, rfl, hj⟩ := hrow e' he'
        unfold extOf at hext
        rw [hext, hj] at hi
        rw [Option.some.inj hi]
      sorted := List.pairwise_map.2 hselects.sorted
      own := fun hit hhit => by
        obtain ⟨e, he, rfl⟩ := List.mem_map.1 hhit
        obtain ⟨i, -, rfl, hi⟩ := hrow e he
        refine ⟨db.pointAt i, ?_, rfl, rfl⟩
        unfold VDB.logical hitOf
        rw [hi]
        rfl
      nearest := fun x p hx hnot hit hhit => by
        obtain ⟨e, he, rfl⟩ := List.mem_map.1 hhit
        obtain ⟨i, hi, rfl⟩ := Option.map_eq_some_iff.1 hx
        obtain ⟨en, hen, hl, hext⟩ := (h.map x i).1 hi
        have hin : i ∈ db.liveIds := (mem_liveIds h).2 ⟨en, hen, hl⟩
        refine hselects.le_of_not_mem (List.mem_map_of_mem hin) (fun hc => hnot ?_) he
        rw [hids]
        refine List.mem_map.2 ⟨_, hc, ?_⟩
        change db.intToExt.getD i 0 = x
        rw [h.ids, ← hext]
        exact MetadataStore.getD_of_getElem (by rw [List.getElem?_map]; exact congrArg _ hen) 0 }

end VDB

namespace System

variable {ι δ : Type} [ColumnIndex ι] [Distance δ] {K : Kernels δ} {s : System ι δ}
  {config : VDBConfig} {db₀ : VDB ι} {es : List Entry} {next : Step} {k : ℕ}

/-- Orderly calls, compactions that find no pending node, and reloads between calls that return. -/
def Careful (K : Kernels δ) (s : System ι δ) : Step → Prop
  | .act a => s.Orderly K a ∧ s.Quiet a
  | .reload lsn => (∀ x, s.calls x = none) ∧ s.db.config.dim < 2 ^ 32 ∧ s.db.WordSized lsn ∧
    s.db.Rebuilds

/-- Over a Brute index no orderly call fails an `assert`. -/
theorem Careful.leaves (hs : s.Shaped config) (h : s.Careful K next) : s.Leaves K next := by
  cases next with
  | reload lsn => exact h.2
  | act a =>
    obtain ⟨ho, -⟩ := h
    have hchecked : ∀ {rec : Record} {e : Exn}, s.db.validate rec = .error e →
        e ≠ .assertionFailed := validate_error
    refine ⟨fun hab => ?_, fun hc => ?_⟩
    · rcases ho.returns with hr | hr
      · cases hp : s.perform K a with
        | ok u s' =>
          rw [hp] at hab
          exact hab
        | error e s' =>
          rw [hp] at hr
          exact hr
      · cases a with
        | insert vec rec =>
          dsimp only [perform] at hab
          cases hv : s.db.validate rec with
          | ok u => exact hr hv
          | error e =>
            rw [hv] at hab
            exact hchecked hv hab
        | insertReserved ext vec rec =>
          dsimp only [perform, begin] at hab
          cases hv : s.db.validate rec with
          | ok u => exact hr hv
          | error e =>
            rw [hv] at hab
            exact hchecked hv hab
        | update ext vec rec =>
          dsimp only [perform, begin] at hab
          cases hv : s.db.validateUpdate rec with
          | ok u => exact hr hv
          | error e =>
            rw [hv] at hab
            cases rec with
            | none => cases hv
            | some rec => exact hchecked hv hab
        | setMetadata ext rec =>
          dsimp only [perform, whole] at hab
          unfold VDB.setMetadata at hab
          cases hv : s.db.validate rec with
          | ok u => exact hr hv
          | error e =>
            rw [hv] at hab
            exact hchecked hv hab
        | allocate ext =>
          -- a Brute index takes every vector
          obtain ⟨call, -, vec, -, hrefused⟩ := hr
          rw [hs.db.index] at hrefused
          exact hrefused trivial
        | _ => exact hr.elim
    · subst hc
      exact ho.returns.resolve_right id

omit [ColumnIndex ι] [Distance δ] in
/-- Between calls the database alone matters. -/
theorem Inv.reloaded {J : ℕ → Column ι → List ColRow → Prop} {db : VDB ι} (h : s.Inv J config es)
    (hcalls : ∀ x, s.calls x = none) (hholds : db.Holds J config es)
    (hnext : db.nextExtId = s.db.nextExtId) : ({ s with db } : System ι δ).Inv J config es where
  holds := hholds
  calls x call hx := by
    change s.calls x = some call at hx
    rw [hcalls x] at hx
    cases hx
  ids x hx := (h.ids x hx).trans_eq hnext.symm
  handedOut x hx := (h.handedOut x hx).trans_eq hnext.symm

/-- **One step** keeps the entries and the shape. -/
theorem Inv.careful (h : (∃ es, s.Inv VDB.SizedBy config es) ∧ s.Shaped config)
    (hc : s.Careful K next) :
    (∃ es, (s.step K next).Inv VDB.SizedBy config es) ∧ (s.step K next).Shaped config := by
  obtain ⟨⟨es, hinv⟩, hs⟩ := h
  refine ⟨?_, hs.step (hc.leaves hs)⟩
  cases next with
  | act a => exact hinv.act Column.invariant_sized hc.1 hc.2 False.elim False.elim
  | reload lsn =>
    obtain ⟨hcalls, -, hw, hrebuilds⟩ := hc
    obtain ⟨hholds, hnext⟩ := hinv.holds.reload (fun _ _ _ hc => hc)
      (fun {a c rows} spec _ hc => show c.reread (Column.new spec) |>.clearDerived.Sized _ by
        rw [Column.unpublished, List.length_map]
        exact Column.Sized.reread hc spec)
      (fun {a c c' rows i v} hc _ he => show c'.Sized _ by
        rw [List.length_set]
        exact Column.Sized.rebuildRow hc he)
      hw hrebuilds
    exact ⟨es, hinv.reloaded hcalls hholds hnext⟩

/-- **A search is exact**, in every state that calls and reloads reach, if its vectors have room. -/
theorem searches_exact (hnew : VDB.new config = .ok db₀) (hbrute : config.kind = .brute)
    (steps : List Step) (h : Run.Along (step K) (fun s a => s.Careful K a) { db := db₀ } steps)
    (query : Vec) (hk : 0 < k) (hmax : k ≤ maxSize hitBytes)
    (hroom : k + (steps.foldl (step K) { db := db₀ }).db.deletedCount < 2 ^ 64) :
    let db := (steps.foldl (step K) { db := db₀ }).db
    ∃ hits, db.searchHits K query k = .ok hits ∧ db.search K query k = .ok (hits.map Hit.id) ∧
      db.Nearest K query k hits := by
  have hstart : ({ db := db₀ } : System ι δ).Shaped config :=
    ⟨VDB.shaped_new hnew hbrute, by rintro x vec rec ⟨⟩, by rintro x vec rec ⟨⟩⟩
  obtain ⟨⟨es, hinv⟩, hs⟩ := Run.Along.invariant
    (I := fun s : System ι δ => (∃ es, s.Inv VDB.SizedBy config es) ∧ s.Shaped config)
    (fun _ _ hs hc => Inv.careful hs hc)
    ⟨⟨[], inv_new hnew fun _ spec _ => Column.sized_new spec⟩, hstart⟩ h
  exact hinv.holds.nearest hs.db query hk hmax hroom

/-- One row is live, and another one pending. -/
theorem searches_pending :
    let steps := [Step.act (.insert [1] {}), .act (.allocate 0), .act (.link 0), .act (.publish 0),
      .act (.insert [2] {}), .act (.allocate 1)]
    let db := (steps.foldl (step (ι := PairIndex) onePlace) small).db
    ∃ hits, db.searchHits onePlace [3] 5 = .ok hits ∧
      db.search onePlace [3] 5 = .ok (hits.map Hit.id) ∧ db.Nearest onePlace [3] 5 hits :=
  searches_exact new_small rfl
    [.act (.insert [1] {}), .act (.allocate 0), .act (.link 0), .act (.publish 0),
      .act (.insert [2] {}), .act (.allocate 1)]
    ⟨⟨by decide +kernel, nofun⟩, ⟨by decide +kernel, nofun⟩, ⟨by decide +kernel, nofun⟩,
      ⟨by decide +kernel, nofun⟩, ⟨by decide +kernel, nofun⟩, ⟨by decide +kernel, nofun⟩, trivial⟩
    [3] (by decide) (by decide) (by decide +kernel)

/-- The node of an insert is dropped while it is pending, and the insert publishes a row that has
been removed since: a search reports the removed id. -/
theorem dropped_found :
    let acts : List Action := dropped ++ [.remove 1, .publish 0]
    let db := (acts.foldl (act (ι := PairIndex) onePlace) small).db
    Run.Along (act (ι := PairIndex) onePlace) (fun s a => s.Orderly onePlace a) small acts ∧
      1 + db.deletedCount < 2 ^ 64 ∧
      ¬ ∃ hits, db.searchHits onePlace [3] 1 = .ok hits ∧ db.Nearest onePlace [3] 1 hits := by
  intro acts db
  refine ⟨by decide +kernel, by decide +kernel, ?_⟩
  rintro ⟨hits, hsearch, hnearest⟩
  have hfound : (db.searchHits onePlace [3] 1).map (List.map Hit.id) = .ok [1] := by decide +kernel
  have hgone : (db.logical 1).isNone = true := by decide +kernel
  rw [hsearch] at hfound
  -- the only hit would be a point of the database
  obtain ⟨hit, hhit, hid⟩ := List.mem_map.1 (show 1 ∈ hits.map Hit.id by
    rw [Except.ok.inj hfound]
    exact List.mem_singleton_self 1)
  obtain ⟨p, hp, -⟩ := hnearest.own hit hhit
  rw [hid, Option.isNone_iff_eq_none.1 hgone] at hp
  cases hp

end System

end Database

end Vdb
