import Cellule.Ltx.SparseLaws

/-!
# Runs over the sparse writable database file

Batches of pages are planned, fetched and installed at different times, with calls of the database
in between. What a plan leaves out stays resolved (`Planned`), so that a batch may be installed late
(`installHydration_ends`), and every run of calls stands for the same run over an ordinary file
(`sparse_file_mirrors`).
-/

namespace Cellule

open Stateful List Except

namespace SparseApp

variable {app : SparseApp} {s s' : SparseState} {file : ByteFile} {env : Surroundings}

/-! ## Batches -/

/-- Pages that resolve everything below a page. -/
structure Planned (app : SparseApp) (s : SparseState) (planned : List Nat) (next : Nat) : Prop where
  pages : ∀ page ∈ planned, page ∈ app.pages
  rest : ∀ page ∈ app.pages, page < next → app.Resolved s page ∨ page ∈ planned

theorem Planned.mono {next : Nat} (h : app.Planned s planned next)
    (hs : ∀ page, app.Resolved s page → app.Resolved s' page) : app.Planned s' planned next :=
  ⟨h.pages, fun page hpage hlt => (h.rest page hpage hlt).imp_left (hs page)⟩

theorem planLoop_ok {limit fuel next next' : Nat}
    (h : app.planLoop s limit fuel planned next = .ok (planned', next')) (hnext : 0 < next)
    (hplanned : app.Planned s planned next) : app.Planned s planned' next' := by
  induction fuel generalizing planned next with
  | zero =>
    cases h
    exact hplanned
  | succ fuel ih =>
    unfold planLoop at h
    split at h
    · next hmore =>
      split at h
      · cases h
      · refine ih h (Nat.succ_pos _) ⟨fun page hpage => ?_, fun page hpage hlt => ?_⟩
        · split at hpage
          · next htake =>
            rcases mem_append.1 hpage with hpage | hpage
            · exact hplanned.pages page hpage
            · rw [mem_singleton.1 hpage]
              exact mem_pages.2 ⟨htake.2.2, hnext, hmore.1⟩
          · exact hplanned.pages page hpage
        · rcases Nat.lt_succ_iff_lt_or_eq.1 hlt with hlt | rfl
          · refine (hplanned.rest page hpage hlt).imp_right fun hmem => ?_
            split
            · exact mem_append_left _ hmem
            · exact hmem
          · split
            · exact .inr (mem_append_right _ (mem_singleton_self _))
            · next hskip =>
              refine .inl ?_
              by_contra hmissing
              refine hskip ⟨Nat.le_of_not_lt fun hgt => hmissing (.inl hgt), ?_,
                (mem_pages.1 hpage).1⟩
              exact Bool.eq_false_iff.2 fun hpresent => hmissing (.inr (.inl hpresent))
    · cases h
      exact hplanned

theorem prepareHydration_ok (h : app.Mirrors s file) {limit : Nat} {read : HydrationRead}
    (hok : app.prepareHydration s limit = .ok read) :
    read.app = app.id ∧ app.Planned s read.pages read.next := by
  obtain ⟨-, hok⟩ := reject_bind_eq_ok.1 hok
  obtain ⟨⟨planned, next⟩, hplan, hok⟩ := bind_eq_ok.1 hok
  cases hok
  exact ⟨rfl, planLoop_ok hplan h.start ⟨fun _ hpage => absurd hpage not_mem_nil,
    fun page hpage hlt => .inl (h.cursor page hpage hlt)⟩⟩

/-- What is fetched is what was planned. -/
theorem fetchLoop_ok (h : app.fetchLoop serve plan fuel fetched = .ok fetched')
    (hplan : fetched.map (·.1) = plan.take fetched.length)
    (hroot : ∀ page ∈ fetched, page.2 = app.root page.1)
    (hfuel : plan.length ≤ fetched.length + fuel) :
    fetched'.map (·.1) = plan ∧ ∀ page ∈ fetched', page.2 = app.root page.1 := by
  induction fuel generalizing fetched with
  | zero =>
    cases h
    exact ⟨by rw [hplan, take_of_length_le (by omega)], hroot⟩
  | succ fuel ih =>
    unfold fetchLoop at h
    split at h
    · next hdone =>
      cases h
      exact ⟨by rw [hplan, take_of_length_le (drop_eq_nil_iff.1 hdone)], hroot⟩
    · next first rest _ =>
      obtain ⟨served, -, h⟩ := bind_eq_ok.1 h
      obtain ⟨hserved, h⟩ := reject_bind_eq_ok.1 h
      obtain ⟨hfetched, h⟩ := reject_bind_eq_ok.1 h
      rw [Bool.or_eq_false_iff, bne_eq_false_iff_eq] at hfetched
      rw [Bool.or_eq_false_iff, beq_eq_false_iff_ne] at hserved
      have hlength : ((List.range' first served).map fun page => (page, app.root page)).length
          = served := by rw [length_map, length_range']
      refine ih h ?_ (fun page hpage => ?_) ?_
      · rw [map_append, hplan, hfetched.1, length_append, hlength, ← take_add]
      · rcases mem_append.1 hpage with hpage | hpage
        · exact hroot page hpage
        · obtain ⟨n, -, rfl⟩ := mem_map.1 hpage
          rfl
      · rw [length_append, hlength]
        omega

/-- A batch holds the root's pages, and resolves everything below its end. -/
structure Prepared (app : SparseApp) (s : SparseState) (batch : HydrationBatch) : Prop where
  planned : app.Planned s (batch.pages.map (·.1)) batch.next
  root : ∀ page ∈ batch.pages, page.2 = app.root page.1

theorem fetch_ok {read : HydrationRead}
    (h : app.Planned s read.pages read.next) (hok : app.fetch serve read = .ok batch) :
    batch.app = read.app ∧ app.Prepared s batch := by
  obtain ⟨pages, hpages, hok⟩ := bind_eq_ok.1 hok
  cases hok
  obtain ⟨hplan, hroot⟩ := fetchLoop_ok hpages rfl (fun _ hpage => absurd hpage not_mem_nil)
    (by rw [length_nil, Nat.zero_add])
  exact ⟨rfl, by rw [hplan]; exact h, hroot⟩

/-- A batch is installed at any time after it was planned; one of another activation is refused. -/
theorem installHydration_ends (h : app.Mirrors s file)
    (hbatch : batch.app = app.id → app.Prepared s batch) :
    (app.installHydration env batch).Ends s
      (fun r s' => app.Hydrated s file s' ∧ r = app.hydration s') (app.Hydrated s file) := by
  unfold installHydration
  rw [ends_bind, ends_rejectWhen]
  refine ⟨fun _ => ⟨h, .refl s⟩, fun hid => ?_⟩
  rw [bne_eq_false_iff_eq] at hid
  have hprepared := hbatch hid.symm
  rw [ends_bind]
  refine (Stateful.Ends.forM (I := fun done s' => app.Led s file s' ∧
    ∀ page ∈ done, app.Resolved s' page.1) (fun done page s' hpage hs' => ?_)
    ⟨.refl h, fun _ hpage => absurd hpage not_mem_nil⟩).mono (fun _ s' hs' => ?_)
    fun _ => Led.hydrated
  · have hmem := hprepared.planned.pages page.1 (mem_map_of_mem hpage)
    rw [hprepared.root page hpage]
    refine (installPage_ends hs'.1.mirrors hmem).mono (fun _ s'' hs'' => ?_)
      fun _ hs'' => hs'.1.trans hs''
    refine ⟨hs'.1.trans hs''.1, fun page' hpage' => ?_⟩
    rcases mem_append.1 hpage' with hpage' | hpage'
    · exact hs''.1.leads.resolved _ (hs'.2 page' hpage')
    · rw [mem_singleton.1 hpage']
      exact hs''.2
  · rw [ends_bind, ends_change, ends_bind, ends_look, ends_pure]
    have hm := hs'.1.mirrors
    have hl := hs'.1.leads
    refine ⟨⟨⟨hm.size, hm.ceiling, hm.room, hm.bytes, hm.root, hm.cut, hm.resolved,
      lt_max_of_lt_left hm.start, fun page hpage hlt => ?_⟩, hl.size, hl.ceiling,
      le_max_of_le_left hl.cursor, hl.resolved, hl.bytes⟩, rfl⟩
    rcases lt_max_iff.1 hlt with hlt | hlt
    · exact hm.cursor page hpage hlt
    · rcases hprepared.planned.rest page hpage hlt with hresolved | hmem
      · exact hl.resolved page hresolved
      · obtain ⟨entry, hentry, rfl⟩ := mem_map.1 hmem
        exact hs'.2 entry hentry

/-! ## Runs -/

/-- The calls of the database and of the hydration. -/
inductive VfsCall where
  | read (amount offset : Int)
  | write (data : Bytes) (offset : Int)
  | truncate (size : Int)
  | step (pages : Nat)
  | prepare (limit : Nat)
  | fetch (serve : Nat → Nat → Option Nat) (read : HydrationRead)
  | install (batch : HydrationBatch)

/-- A file in use, with the plans and the batches made so far. -/
structure VfsState where
  sparse : SparseState
  reads : List HydrationRead := []
  batches : List HydrationBatch := []

/-- A call, on the sparse file and on an ordinary file that is given the same successful writes and
truncations. -/
def call (app : SparseApp) (env : Surroundings) (v : VfsState) (file : ByteFile) :
    VfsCall → VfsState × ByteFile
  | .read amount offset =>
    ({ v with sparse := ((app.xRead env amount offset).outcome v.sparse).2 }, file)
  | .write data offset =>
    match (app.xWrite env data offset).outcome v.sparse with
    | (.ok _, sparse) => ({ v with sparse }, file.write offset.toNat data)
    | (.error _, sparse) => ({ v with sparse }, file)
  | .truncate size =>
    match (app.xTruncate env size).outcome v.sparse with
    | (.ok _, sparse) => ({ v with sparse }, file.truncate size.toNat)
    | (.error _, sparse) => ({ v with sparse }, file)
  | .step pages => ({ v with sparse := ((app.step env pages).outcome v.sparse).2 }, file)
  | .prepare limit =>
    match app.prepareHydration v.sparse limit with
    | .ok read => ({ v with reads := read :: v.reads }, file)
    | .error _ => (v, file)
  | .fetch serve read =>
    match app.fetch serve read with
    | .ok batch => ({ v with batches := batch :: v.batches }, file)
    | .error _ => (v, file)
  | .install batch =>
    ({ v with sparse := ((app.installHydration env batch).outcome v.sparse).2 }, file)

/-- The calls there can be: plans and batches of this activation were made before. -/
def Allowed (app : SparseApp) (v : VfsState) : VfsCall → Prop
  | .fetch _ read => read ∈ v.reads
  | .install batch => batch.app = app.id → batch ∈ v.batches
  | .read .. | .write .. | .truncate .. | .step .. | .prepare .. => True

/-- The runs over a root. -/
inductive Reach (app : SparseApp) : VfsState → ByteFile → Prop
  | register : Reach app { sparse := app.register } app.preloaded
  | call {v : VfsState} {file : ByteFile} (h : Reach app v file) (env : Surroundings) (c : VfsCall)
      (hc : app.Allowed v c) : Reach app (app.call env v file c).1 (app.call env v file c).2

/-- The file stands for the ordinary one, and every plan and batch can still be used. -/
structure Stands (app : SparseApp) (v : VfsState) (file : ByteFile) : Prop where
  mirrors : app.Mirrors v.sparse file
  reads : ∀ read ∈ v.reads, read.app = app.id ∧ app.Planned v.sparse read.pages read.next
  batches : ∀ batch ∈ v.batches, app.Prepared v.sparse batch

/-- A registration is a hole over an ordinary file with the root's pages. -/
theorem mirrors_register : app.Mirrors app.register app.preloaded := by
  have hsize := app.size_pos
  have hpageOf : ∀ i, app.pageOf i ≤ app.count ↔ i < app.count * app.size := by
    intro i
    rw [← Nat.div_lt_iff_lt_mul hsize]
    exact Nat.succ_le_iff
  refine ⟨rfl, le_refl _, le_refl _, fun i hi => ?_, fun i hi => ?_, fun page hlt hpage => ?_, ?_,
    Nat.one_pos, fun page hpage hlt => ?_⟩
  · refine (if_neg fun hin => ?_).symm
    rcases hi with hlt | hpresent | hlock
    · exact absurd ((hpageOf i).2 hin.1) (Nat.not_le.2 hlt)
    · cases hpresent
    · exact hin.2 hlock
  · refine if_pos ⟨(hpageOf i).1 (Nat.le_of_not_lt fun hlt => hi (.inl hlt)), fun hlock => ?_⟩
    exact hi (.inr (.inr hlock))
  · exact absurd (mem_pages.1 hpage).2.2 (Nat.not_le.2 hlt)
  · show 0 = _
    rw [eq_comm, Finset.card_eq_zero, Finset.filter_eq_empty_iff]
    intro page _ hpresent
    cases hpresent
  · have hpos := (mem_pages.1 hpage).2.1
    change page < 1 at hlt
    omega

/-- A change that resolves more keeps the plans and batches. -/
theorem Stands.sparse {file' : ByteFile} (h : app.Stands v file) (hmirrors : app.Mirrors s file')
    (hresolved : ∀ page, app.Resolved v.sparse page → app.Resolved s page) :
    app.Stands { v with sparse := s } file' :=
  ⟨hmirrors, fun read hread => ⟨(h.reads read hread).1, (h.reads read hread).2.mono hresolved⟩,
    fun batch hbatch => ⟨(h.batches batch hbatch).planned.mono hresolved,
      (h.batches batch hbatch).root⟩⟩

/-- What a call does: it keeps the correspondence, and what is resolved stays resolved. -/
theorem Stands.call {v : VfsState} (h : app.Stands v file) (hcount : app.count < u32Max)
    (env : Surroundings) (c : VfsCall) (hc : app.Allowed v c) :
    app.Stands (app.call env v file c).1 (app.call env v file c).2 ∧
      ∀ page, app.Resolved v.sparse page → app.Resolved (app.call env v file c).1.sparse page := by
  have hhydrated : ∀ s', app.Hydrated v.sparse file s' → app.Stands { v with sparse := s' } file ∧
      ∀ page, app.Resolved v.sparse page → app.Resolved s' page :=
    fun s' hs' => ⟨h.sparse hs'.1 hs'.2.resolved, hs'.2.resolved⟩
  cases c with
  | read amount offset =>
    have hends : (app.xRead env amount offset).Ends v.sparse _ _ :=
      xRead_ends h.mirrors amount offset
    exact hhydrated _ (hends.mono (fun _ _ hs' => hs'.1.hydrated) fun _ => Led.hydrated).always
  | write data offset =>
    have hends : (app.xWrite env data offset).Ends v.sparse _ _ := xWrite_ends h.mirrors data offset
    dsimp only [SparseApp.call]
    split
    · next hok =>
      obtain ⟨hmirrors, hresolved, -, -⟩ := hends.ok hok
      exact ⟨h.sparse hmirrors hresolved, hresolved⟩
    · next herror => exact hhydrated _ (hends.error herror).hydrated
  | truncate size =>
    have hends : (app.xTruncate env size).Ends v.sparse _ _ := xTruncate_ends h.mirrors hcount
    dsimp only [SparseApp.call]
    split
    · next hok =>
      obtain ⟨hmirrors, hresolved, -, -⟩ := hends.ok hok
      exact ⟨h.sparse hmirrors hresolved, hresolved⟩
    · next herror =>
      rw [hends.error herror]
      exact ⟨h, fun _ hpage => hpage⟩
  | step pages =>
    have hends : (app.step env pages).Ends v.sparse _ _ := step_ends h.mirrors pages
    exact hhydrated _ (hends.mono (fun _ _ hs' => hs'.1) fun _ hs' => hs').always
  | prepare limit =>
    dsimp only [SparseApp.call]
    split
    · next read hok =>
      refine ⟨⟨h.mirrors, fun read' hread' => ?_, h.batches⟩, fun _ hpage => hpage⟩
      rcases mem_cons.1 hread' with rfl | hread'
      · exact prepareHydration_ok h.mirrors hok
      · exact h.reads read' hread'
    · exact ⟨h, fun _ hpage => hpage⟩
  | fetch serve read =>
    dsimp only [SparseApp.call]
    split
    · next batch hok =>
      refine ⟨⟨h.mirrors, h.reads, fun batch' hbatch' => ?_⟩, fun _ hpage => hpage⟩
      rcases mem_cons.1 hbatch' with rfl | hbatch'
      · exact (fetch_ok (h.reads read hc).2 hok).2
      · exact h.batches batch' hbatch'
    · exact ⟨h, fun _ hpage => hpage⟩
  | install batch =>
    have hends : (app.installHydration env batch).Ends v.sparse _ _ :=
      installHydration_ends h.mirrors fun hid => h.batches batch (hc hid)
    exact hhydrated _ (hends.mono (fun _ _ hs' => hs'.1) fun _ hs' => hs').always

/-- The run lemma: in every state that is reached, the file stands for the ordinary one. -/
theorem Reach.stands (h : app.Reach v file) (hcount : app.count < u32Max) : app.Stands v file := by
  induction h with
  | register =>
    exact ⟨mirrors_register, fun _ hread => absurd hread not_mem_nil,
      fun _ hbatch => absurd hbatch not_mem_nil⟩
  | call _ env c hc ih => exact (ih.call hcount env c hc).1

/-- The calls that only bring in pages of the root. -/
def VfsCall.Inherits : VfsCall → Prop
  | .write .. | .truncate .. => False
  | .read .. | .step .. | .prepare .. | .fetch .. | .install .. => True

/-- Pages of the root never take the place of bytes that count. -/
theorem Stands.inherits (h : app.Stands v file) (env : Surroundings)
    (hc : app.Allowed v c) (hinherits : c.Inherits) (hi : app.Resolved v.sparse (app.pageOf i)) :
    (app.call env v file c).1.sparse.base.byte i = v.sparse.base.byte i := by
  cases c with
  | read amount offset =>
    have hends : (app.xRead env amount offset).Ends v.sparse _ _ :=
      xRead_ends h.mirrors amount offset
    exact (hends.mono (fun _ _ hs' => hs'.1.leads.bytes i hi)
      fun _ hs' => hs'.leads.bytes i hi).always
  | write | truncate => exact hinherits.elim
  | step pages =>
    have hends : (app.step env pages).Ends v.sparse _ _ := step_ends h.mirrors pages
    exact (hends.mono (fun _ _ hs' => hs'.1.2.bytes i hi) fun _ hs' => hs'.2.bytes i hi).always
  | prepare limit =>
    dsimp only [SparseApp.call]
    split <;> rfl
  | fetch serve read =>
    dsimp only [SparseApp.call]
    split <;> rfl
  | install batch =>
    have hends : (app.installHydration env batch).Ends v.sparse _ _ :=
      installHydration_ends h.mirrors fun hid => h.batches batch (hc hid)
    exact (hends.mono (fun _ _ hs' => hs'.1.2.bytes i hi) fun _ hs' => hs'.2.bytes i hi).always

/-- The counter reaches the total only when every page is marked. -/
theorem Mirrors.complete (h : app.Mirrors s file) (hcomplete : (app.hydration s).complete = true) :
    ∀ page ∈ app.pages, s.present page = true := by
  have htotal : (app.hydration s).total = app.pages.card := by
    unfold hydration pages
    dsimp only
    have hlock := app.one_lt_lock
    by_cases hle : app.lock ≤ app.count
    · rw [if_pos hle, Finset.card_erase_of_mem (Finset.mem_Icc.2 ⟨by omega, hle⟩), Nat.card_Icc]
      omega
    · rw [if_neg hle, Finset.erase_eq_of_notMem (fun hmem => hle (Finset.mem_Icc.1 hmem).2),
        Nat.card_Icc]
      omega
  have hcard : (app.pages.filter fun page => s.present page = true).card = app.pages.card := by
    rw [← h.resolved, ← htotal]
    exact beq_iff_eq.1 hcomplete
  exact fun page hpage => Finset.filter_card_eq hcard page hpage

/-- In every run over a root of fewer than `2^32 - 1` pages, which every SQLite database has, with
batches installed at any time after they were planned: a read that succeeds returns what the
ordinary file holds; the files have the same size; calls that bring in pages of the root change no
byte of a resolved page, and pages that were written or cut off are resolved and stay so; the pages
below the cursor are present or cut off; and hydration is complete only when all pages are
present. -/
theorem sparse_file_mirrors {v : VfsState} (h : app.Reach v file) (hcount : app.count < u32Max) :
    (∀ env amount offset r s', (app.xRead env amount offset).outcome v.sparse = (.ok r, s') →
      r = file.read offset.toNat amount.toNat) ∧
    v.sparse.base.size = file.size ∧
    (∀ env c, app.Allowed v c → c.Inherits → ∀ i, app.Resolved v.sparse (app.pageOf i) →
      (app.call env v file c).1.sparse.base.byte i = v.sparse.base.byte i) ∧
    (∀ env c, app.Allowed v c → ∀ page, app.Resolved v.sparse page →
      app.Resolved (app.call env v file c).1.sparse page) ∧
    (∀ env data offset s', (app.xWrite env data offset).outcome v.sparse = (.ok (), s') →
      ∀ i, offset.toNat ≤ i → i < offset.toNat + data.length → app.Resolved s' (app.pageOf i)) ∧
    (∀ env size s', (app.xTruncate env size).outcome v.sparse = (.ok (), s') →
      ∀ page, size.toNat / app.size < page → app.Resolved s' page) ∧
    (∀ page, 0 < page → page ≤ app.count → page ≠ app.lock → page < v.sparse.cursor →
      v.sparse.present page = true ∨ v.sparse.ceiling < page) ∧
    ((app.hydration v.sparse).complete = true →
      ∀ page, 0 < page → page ≤ app.count → page ≠ app.lock → v.sparse.present page = true) := by
  have hstands := h.stands hcount
  have hmirrors := hstands.mirrors
  refine ⟨fun env amount offset r s' hread => ((xRead_ends hmirrors amount offset).ok hread).2.1,
    hmirrors.size, fun env c hc hinherits i hi => hstands.inherits env hc hinherits hi,
    fun env c hc => (hstands.call hcount env c hc).2,
    fun env data offset s' hwrite => ((xWrite_ends hmirrors data offset).ok hwrite).2.2.2,
    fun env size s' htruncate => ((xTruncate_ends hmirrors hcount).ok htruncate).2.2.2,
    fun page hpos hcount hlock hlt => ?_,
    fun hcomplete page hpos hcount hlock =>
      hmirrors.complete hcomplete page (mem_pages.2 ⟨hlock, hpos, hcount⟩)⟩
  rcases hmirrors.cursor page (mem_pages.2 ⟨hlock, hpos, hcount⟩) hlt with hcut | hpresent | heq
  · exact .inr hcut
  · exact .inl hpresent
  · exact absurd heq hlock

/-! ## Sample runs -/

/-- A root whose pages are filled with sevens. -/
def sampleApp (count : Nat) (bound : count ≤ u32Max) : SparseApp where
  id := 1
  pageSize := 512
  count
  root _ := List.replicate 512 7
  valid := by decide
  bound

/-- Of two pages, one is planned for hydration and then overwritten. -/
theorem sparse_file_mirrors_sample : ∃ v file,
    (sampleApp 2 (by decide)).Reach v file ∧ v.reads = [⟨1, [1], 2⟩] ∧ file.byte 3 = 9 ∧
    v.sparse.base.size = file.size := by
  have hstart : (sampleApp 2 (by decide)).Reach _ _ := .register
  have hplanned := hstart.call {} (.prepare 1) trivial
  have hwritten := hplanned.call {} (.write (List.replicate 512 9) 0) trivial
  exact ⟨_, _, hwritten, by decide +kernel, by decide +kernel,
    (sparse_file_mirrors hwritten (by decide)).2.1⟩

/-- Why the number of pages is bounded: a file of as many pages as there are page numbers is cut to
its own size, and its last page then counts as present and reads as zeros. -/
theorem truncate_marks_last_page :
    ((((sampleApp u32Max (le_refl _)).xTruncate {} (u32Max * 512 : Nat)) >>= fun _ =>
      (sampleApp u32Max (le_refl _)).xRead {} 1 ((u32Max - 1) * 512 : Nat)).outcome
        (sampleApp u32Max (le_refl _)).register).1.toOption = some ([0], false) ∧
    ((sampleApp u32Max (le_refl _)).preloaded.truncate (u32Max * 512)).read ((u32Max - 1) * 512) 1
      = ([7], false) := by
  decide +kernel

end SparseApp

end Cellule
