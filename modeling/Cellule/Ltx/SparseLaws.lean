import Cellule.Ltx.SparseFile

/-!
# Laws of the sparse writable database file

A sparse file stands for an ordinary file that was filled with the root's pages (`Mirrors`): the
bytes of resolved pages are in the file, those of the others are the root's. Hydrating keeps this
and every byte of a resolved page (`Leads`), writes and truncations do to it what they do to the
ordinary file.
-/

namespace Cellule

open Stateful List ByteFile

namespace SparseApp

variable (app : SparseApp)

theorem size_pos : 0 < app.size := by
  have := app.valid
  unfold size
  rcases hsize : app.pageSize with ⟨bits⟩
  rw [hsize] at this
  simp only [isValidPageSize, contains_iff_mem, mem_cons, not_mem_nil, or_false] at this
  rcases this with h | h | h | h | h | h | h | h <;> (rw [h]; decide)

theorem one_lt_lock : 1 < app.lock := one_lt_lockPgno app.valid

/-- A page whose bytes in the file count, or that is never fetched: the lock page, and pages that
were cut off or that the root does not have. -/
def Resolved (s : SparseState) (page : Nat) : Prop :=
  s.ceiling < page ∨ s.present page = true ∨ page = app.lock

/-- The pages that count for hydration. -/
def pages : Finset Nat := (Finset.Icc 1 app.count).erase app.lock

/-- An ordinary file filled with the root's pages. -/
def preloaded : ByteFile where
  size := app.count * app.size
  byte i := if i < app.count * app.size ∧ app.pageOf i ≠ app.lock then
    (app.root (app.pageOf i)).getD (i % app.size) 0 else 0
  zero i hi := if_neg (by omega)

/-- The sparse file stands for an ordinary file. -/
structure Mirrors (s : SparseState) (file : ByteFile) : Prop where
  size : s.base.size = file.size
  ceiling : s.ceiling ≤ app.count
  room : s.ceiling * app.size ≤ s.base.size
  bytes : ∀ i, app.Resolved s (app.pageOf i) → s.base.byte i = file.byte i
  root : ∀ i, ¬app.Resolved s (app.pageOf i) →
    file.byte i = (app.root (app.pageOf i)).getD (i % app.size) 0
  cut : ∀ page, s.ceiling < page → page ∈ app.pages → s.present page = true
  resolved : s.resolved = (app.pages.filter fun page => s.present page = true).card
  start : 0 < s.cursor
  cursor : ∀ page ∈ app.pages, page < s.cursor → app.Resolved s page

/-- What hydration does: resolved pages keep their bytes and stay resolved, and the cursor moves
on. -/
structure Leads (s s' : SparseState) : Prop where
  size : s'.base.size = s.base.size
  ceiling : s'.ceiling = s.ceiling
  cursor : s.cursor ≤ s'.cursor
  resolved : ∀ page, app.Resolved s page → app.Resolved s' page
  bytes : ∀ i, app.Resolved s (app.pageOf i) → s'.base.byte i = s.base.byte i

variable {app} {s s' s'' : SparseState} {file : ByteFile}

theorem Leads.refl (s : SparseState) : app.Leads s s :=
  ⟨rfl, rfl, le_refl _, fun _ h => h, fun _ _ => rfl⟩

theorem Leads.trans (h : app.Leads s s') (h' : app.Leads s' s'') : app.Leads s s'' where
  size := h'.size.trans h.size
  ceiling := h'.ceiling.trans h.ceiling
  cursor := h.cursor.trans h'.cursor
  resolved page hpage := h'.resolved page (h.resolved page hpage)
  bytes i hi := (h'.bytes i (h.resolved _ hi)).trans (h.bytes i hi)

/-! ## Marking pages -/

variable {i page first last : Nat}

theorem mem_pages : page ∈ app.pages ↔ page ≠ app.lock ∧ 0 < page ∧ page ≤ app.count := by
  unfold pages
  rw [Finset.mem_erase, Finset.mem_Icc]
  omega

/-- A page that counts and is not marked is marked and counted. -/
theorem mark_eq (s : SparseState) (page : Nat) :
    app.mark s page = if page ∈ app.pages ∧ s.present page = false then
      { s with present := Function.update s.present page true, resolved := s.resolved + 1 }
    else s := by
  unfold mark
  simp only [mem_pages]
  split
  · rw [if_neg (by omega)]
  · cases hpresent : s.present page with
    | true => rw [if_pos rfl, if_neg (by simp)]
    | false => rw [if_neg Bool.false_ne_true, if_pos ⟨by omega, rfl⟩]

theorem mark_frame (s : SparseState) (page : Nat) : (app.mark s page).base = s.base ∧
    (app.mark s page).ceiling = s.ceiling ∧ (app.mark s page).cursor = s.cursor := by
  rw [mark_eq]
  split <;> exact ⟨rfl, rfl, rfl⟩

/-- Exactly the page is marked, if it counts. -/
theorem mark_present (s : SparseState) (page n : Nat) :
    (app.mark s page).present n = true ↔ s.present n = true ∨ n = page ∧ n ∈ app.pages := by
  rw [mark_eq]
  split
  · next hnew =>
    by_cases hn : n = page
    · subst hn
      simp [hnew.1]
    · simp [hn]
  · next hold =>
    refine ⟨.inl, ?_⟩
    rintro (h | ⟨rfl, hn⟩)
    · exact h
    · by_contra hfalse
      exact hold ⟨hn, Bool.eq_false_of_not_eq_true hfalse⟩

/-- The counter counts the marked pages. -/
theorem mark_resolved (s : SparseState) (page : Nat)
    (h : s.resolved = (app.pages.filter fun n => s.present n = true).card) :
    (app.mark s page).resolved = (app.pages.filter fun n => (app.mark s page).present n
      = true).card := by
  by_cases hnew : page ∈ app.pages ∧ s.present page = false
  · have hfilter : (app.pages.filter fun n => (app.mark s page).present n = true)
        = insert page (app.pages.filter fun n => s.present n = true) := by
      ext n
      simp only [Finset.mem_filter, Finset.mem_insert, mark_present]
      constructor
      · rintro ⟨hn, h' | ⟨rfl, -⟩⟩
        · exact .inr ⟨hn, h'⟩
        · exact .inl rfl
      · rintro (rfl | ⟨hn, h'⟩)
        · exact ⟨hnew.1, .inr ⟨rfl, hnew.1⟩⟩
        · exact ⟨hn, .inl h'⟩
    rw [hfilter, Finset.card_insert_of_notMem (by simp [hnew.2]), ← h, mark_eq, if_pos hnew]
  · rw [mark_eq, if_neg hnew]
    exact h

/-- Marking a list of pages. -/
theorem foldl_mark (app : SparseApp) (marked : List Nat) (s : SparseState) :
    (marked.foldl app.mark s).base = s.base ∧ (marked.foldl app.mark s).ceiling = s.ceiling ∧
      (marked.foldl app.mark s).cursor = s.cursor ∧
      (∀ n, (marked.foldl app.mark s).present n = true ↔
        s.present n = true ∨ n ∈ marked ∧ n ∈ app.pages) ∧
      (s.resolved = (app.pages.filter fun n => s.present n = true).card →
        (marked.foldl app.mark s).resolved
          = (app.pages.filter fun n => (marked.foldl app.mark s).present n = true).card) := by
  induction marked generalizing s with
  | nil => exact ⟨rfl, rfl, rfl, fun n => by simp, fun h => h⟩
  | cons page marked ih =>
    obtain ⟨hbase, hceiling, hcursor, hpresent, hresolved⟩ := ih (app.mark s page)
    obtain ⟨hbase', hceiling', hcursor'⟩ := mark_frame s page
    rw [foldl_cons]
    refine ⟨hbase.trans hbase', hceiling.trans hceiling', hcursor.trans hcursor', fun n => ?_,
      fun h => hresolved (mark_resolved s page h)⟩
    rw [hpresent, mark_present, mem_cons, or_assoc, ← or_and_right]

/-! ## Pages and bytes -/

theorem pageOf_eq (hpage : 0 < page) :
    app.pageOf i = page ↔ (page - 1) * app.size ≤ i ∧ i < (page - 1) * app.size + app.size := by
  have hsize := app.size_pos
  unfold pageOf
  rw [← Nat.succ_mul, ← Nat.le_div_iff_mul_le hsize, ← Nat.div_lt_iff_lt_mul hsize]
  omega

theorem mod_size (hpage : 0 < page) (h : app.pageOf i = page) :
    i % app.size = i - (page - 1) * app.size := by
  have hdiv : i / app.size = page - 1 := by
    unfold pageOf at h
    omega
  have := Nat.div_add_mod i app.size
  rw [hdiv, Nat.mul_comm] at this
  omega

theorem mem_inherited :
    page ∈ app.inherited first last ↔ first ≤ page ∧ page ≤ last ∧ page ≤ app.count := by
  unfold inherited
  rw [mem_range'_1]
  omega

/-! ## Hydrating -/

/-- A page of the root that is written into the file. -/
theorem Mirrors.install (h : app.Mirrors s file) (hpage : page ∈ app.pages)
    (hmissing : ¬app.Resolved s page) (hlength : (app.root page).length = app.size)
    (hs' : s' = app.mark { s with base := s.base.write ((page - 1) * app.size) (app.root page) }
      page) :
    app.Mirrors s' file ∧ app.Leads s s' ∧ app.Resolved s' page ∧ s'.cursor = s.cursor := by
  obtain ⟨hlock, hpos, hcount⟩ := mem_pages.1 hpage
  have hsize := app.size_pos
  have hle : page ≤ s.ceiling := Nat.le_of_not_lt fun hlt => hmissing (.inl hlt)
  obtain ⟨hbase, hceiling, hcursor⟩ := hs' ▸ mark_frame
    { s with base := s.base.write ((page - 1) * app.size) (app.root page) } page
  have hpresent : ∀ n, s'.present n = true ↔ s.present n = true ∨ n = page ∧ n ∈ app.pages :=
    hs' ▸ mark_present _ page
  have hresolved : ∀ n, app.Resolved s' n ↔ app.Resolved s n ∨ n = page := by
    intro n
    unfold Resolved
    rw [hceiling, hpresent]
    constructor
    · rintro (h | (h | ⟨rfl, -⟩) | h)
      · exact .inl (.inl h)
      · exact .inl (.inr (.inl h))
      · exact .inr rfl
      · exact .inl (.inr (.inr h))
    · rintro ((h | h | h) | rfl)
      · exact .inl h
      · exact .inr (.inl (.inl h))
      · exact .inr (.inr h)
      · exact .inr (.inl (.inr ⟨rfl, hpage⟩))
  have hend : (page - 1) * app.size + app.size ≤ s.base.size := by
    rw [← Nat.succ_mul]
    exact le_trans (Nat.mul_le_mul_right _ (by omega)) h.room
  have hbaseSize : (s.base.write ((page - 1) * app.size) (app.root page)).size = s.base.size := by
    rw [size_write (fun hnil => by rw [hnil] at hlength; simp at hlength; omega), hlength]
    omega
  have hother : ∀ i, app.pageOf i ≠ page →
      (s.base.write ((page - 1) * app.size) (app.root page)).byte i = s.base.byte i := by
    intro i hi
    refine byte_write_of_not_mem ?_
    rw [hlength]
    by_contra hin
    exact hi ((pageOf_eq hpos).2 (by omega))
  refine ⟨⟨?_, ?_, ?_, fun i hi => ?_, fun i hi => ?_, fun n hlt hn => ?_, ?_, ?_,
    fun n hn hlt => ?_⟩, ⟨by rw [hbase, hbaseSize], hceiling, hcursor.ge,
    fun n hn => (hresolved n).2 (.inl hn), fun i hi => ?_⟩, (hresolved page).2 (.inr rfl), hcursor⟩
  · rw [hbase, hbaseSize, h.size]
  · rw [hceiling]
    exact h.ceiling
  · rw [hbase, hceiling, hbaseSize]
    exact h.room
  · rw [hbase]
    by_cases hat : app.pageOf i = page
    · have hbounds := (pageOf_eq hpos).1 hat
      rw [byte_write_of_mem hbounds.1 (by rw [hlength]; omega), h.root i (by rwa [hat]), hat,
        mod_size hpos hat]
    · rw [hother i hat]
      exact h.bytes i (((hresolved _).1 hi).resolve_right hat)
  · exact h.root i fun hold => hi ((hresolved _).2 (.inl hold))
  · rw [hceiling] at hlt
    exact (hpresent n).2 (.inl (h.cut n hlt hn))
  · rw [hs']
    exact mark_resolved _ _ h.resolved
  · rw [hcursor]
    exact h.start
  · rw [hcursor] at hlt
    exact (hresolved n).2 (.inl (h.cursor n hn hlt))
  · rw [hbase]
    exact hother i fun hat => hmissing (hat ▸ hi)

/-- A fault that is counted changes nothing else. -/
theorem Mirrors.faults (h : app.Mirrors s file) (faults : Nat) :
    app.Mirrors { s with faults } file :=
  ⟨h.size, h.ceiling, h.room, h.bytes, h.root, h.cut, h.resolved, h.start, h.cursor⟩

theorem Leads.faults (h : app.Leads s s') (faults : Nat) : app.Leads s { s' with faults } :=
  ⟨h.size, h.ceiling, h.cursor, h.resolved, h.bytes⟩

/-- The states that fetching pages leads to from a state. -/
structure Led (app : SparseApp) (s : SparseState) (file : ByteFile) (s' : SparseState) : Prop where
  mirrors : app.Mirrors s' file
  leads : app.Leads s s'
  cursor : s'.cursor = s.cursor

variable {env : Surroundings}

theorem Led.refl (h : app.Mirrors s file) : app.Led s file s := ⟨h, .refl s, rfl⟩

theorem Led.trans (h : app.Led s file t) (h' : app.Led t file s') :
    app.Led s file s' := ⟨h'.mirrors, h.leads.trans h'.leads, h'.cursor.trans h.cursor⟩

theorem installPage_ends (h : app.Mirrors s file) (hpage : page ∈ app.pages) :
    (app.installPage env page (app.root page)).Ends s
      (fun _ s' => app.Led s file s' ∧ app.Resolved s' page) (app.Led s file) := by
  have hfaults : app.Led s file { s with faults := s.faults + 1 } :=
    ⟨h.faults _, (Leads.refl s).faults _, rfl⟩
  unfold installPage
  rw [ends_bind, ends_change, ends_bind, ends_look]
  split
  · next hskip => exact ends_pure.2 ⟨hfaults, hskip.imp (fun hlt => hlt) .inl⟩
  · next hmissing =>
    refine .reject_bind (fun _ => hfaults) fun hlength => ?_
    refine .reject_bind (fun _ => hfaults) fun _ => ?_
    rw [bne_eq_false_iff_eq] at hlength
    rw [ends_change]
    have hunresolved : ¬app.Resolved { s with faults := s.faults + 1 } page := by
      rintro (hlt | hpresent | hlock)
      · exact hmissing (.inl hlt)
      · exact hmissing (.inr hpresent)
      · exact (mem_pages.1 hpage).1 hlock
    obtain ⟨hmirrors, hleads, hresolved, hcursor⟩ :=
      (h.faults (s.faults + 1)).install hpage hunresolved hlength rfl
    exact ⟨hfaults.trans ⟨hmirrors, hleads, hcursor⟩, hresolved⟩

theorem hydratePage_ends (h : app.Mirrors s file) (hpos : 0 < page) (hcount : page ≤ app.count) :
    (app.hydratePage env page).Ends s (fun _ s' => app.Led s file s' ∧ app.Resolved s' page)
      (app.Led s file) := by
  unfold hydratePage
  rw [ends_bind, ends_look]
  split
  · next hskip =>
    refine ends_pure.2 ⟨.refl h, ?_⟩
    rcases hskip with hlock | hlt | hpresent
    · exact .inr (.inr hlock)
    · exact .inl hlt
    · exact .inr (.inl hpresent)
  · next hmissing =>
    rw [ends_bind, ends_rejectWhen]
    exact ⟨fun _ => .refl h, fun _ =>
      installPage_ends h (mem_pages.2 ⟨fun hlock => hmissing (.inl hlock), hpos, hcount⟩)⟩

/-- Hydrating a range resolves its pages, as far as it gets. -/
theorem hydrate_ends (h : app.Mirrors s file) (hfirst : 0 < first) :
    (app.hydrate env first last).Ends s (fun _ s' => app.Led s file s' ∧
      ∀ page, first ≤ page → page ≤ last → app.Resolved s' page) (app.Led s file) := by
  unfold hydrate
  refine (Ends.forM (I := fun done s' => app.Led s file s' ∧
    ∀ page ∈ done, app.Resolved s' page) (fun done page s' hpage hs' => ?_)
    ⟨.refl h, fun _ hpage => absurd hpage not_mem_nil⟩).mono (fun _ s' hs' => ?_) fun _ hs' => hs'
  · obtain ⟨hge, -, hcount⟩ := mem_inherited.1 hpage
    refine (hydratePage_ends hs'.1.mirrors (by omega) hcount).mono (fun _ s'' hs'' => ?_)
      fun _ hs'' => hs'.1.trans hs''
    refine ⟨hs'.1.trans hs''.1, fun n hn => ?_⟩
    rcases mem_append.1 hn with hn | hn
    · exact hs''.1.leads.resolved n (hs'.2 n hn)
    · rw [mem_singleton.1 hn]
      exact hs''.2
  · refine ⟨hs'.1, fun page hge hle => ?_⟩
    by_cases hcount : page ≤ app.count
    · exact hs'.2 page (mem_inherited.2 ⟨hge, hle, hcount⟩)
    · exact .inl (by have := hs'.1.mirrors.ceiling; omega)

/-! ## Reading -/

theorem pageRange_ok {size : Nat} (h : pageRange amount offset size = .ok (first, last)) :
    0 < amount ∧ 0 ≤ offset ∧ first = offset.toNat / size + 1 ∧
      last = (offset.toNat + amount.toNat - 1) / size + 1 := by
  obtain ⟨hpos, h⟩ := Except.reject_bind_eq_ok.1 h
  obtain ⟨-, h⟩ := Except.reject_bind_eq_ok.1 h
  obtain ⟨-, h⟩ := Except.reject_bind_eq_ok.1 h
  simp only [Bool.or_eq_false_iff, decide_eq_false_iff_not] at hpos
  cases h
  refine ⟨by omega, by omega, rfl, ?_⟩
  have : (offset + (amount - 1)).toNat = offset.toNat + amount.toNat - 1 := by omega
  rw [this]

/-- The pages of a range of bytes. -/
theorem pageOf_mem (hi : offset ≤ i) (hi' : i < offset + amount) :
    offset / app.size + 1 ≤ app.pageOf i ∧
      app.pageOf i ≤ (offset + amount - 1) / app.size + 1 :=
  ⟨Nat.succ_le_succ (Nat.div_le_div_right hi), Nat.succ_le_succ (Nat.div_le_div_right (by omega))⟩

/-- A read fetches what it needs and returns what the ordinary file holds. -/
theorem xRead_ends (h : app.Mirrors s file) (amount offset : Int) :
    (app.xRead env amount offset).Ends s (fun r s' => app.Led s file s' ∧
      r = file.read offset.toNat amount.toNat ∧
      ∀ i, offset.toNat ≤ i → i < offset.toNat + amount.toNat → app.Resolved s' (app.pageOf i))
      (app.Led s file) := by
  unfold xRead
  split
  · next hzero =>
    subst hzero
    refine ends_pure.2 ⟨.refl h, ?_, fun i hge hlt => ?_⟩
    · simp [ByteFile.read]
    · simp at hlt
      omega
  · rw [ends_bind]
    refine Ends.lift (fun range hrange => ?_) (.refl h)
    obtain ⟨first, last⟩ := range
    obtain ⟨hamount, -, rfl, rfl⟩ := pageRange_ok hrange
    dsimp only
    rw [ends_bind]
    refine (hydrate_ends h (Nat.succ_pos _)).mono (fun _ s' hs' => ?_) fun _ hs' => hs'
    have hresolved : ∀ i, offset.toNat ≤ i → i < offset.toNat + amount.toNat →
        app.Resolved s' (app.pageOf i) := fun i hge hlt =>
      hs'.2 _ (pageOf_mem hge hlt).1 (pageOf_mem hge hlt).2
    refine .reject_bind (fun _ => hs'.1) fun _ => ?_
    rw [ends_bind, ends_look, ends_pure]
    exact ⟨hs'.1, read_congr hs'.1.mirrors.size fun i hge hlt =>
      hs'.1.mirrors.bytes i (hresolved i hge hlt), hresolved⟩

/-! ## Writing and truncating -/

/-- Bytes that are written, over pages whose other bytes are in the file. -/
theorem Mirrors.write (h : app.Mirrors s file)
    (hdata : data ≠ []) (hfirst : first = offset / app.size + 1)
    (hlast : last = (offset + data.length - 1) / app.size + 1)
    (hbegin : offset % app.size = 0 ∨ app.Resolved s first)
    (hend : (offset + data.length) % app.size = 0 ∨ app.Resolved s last)
    (hs' : s' = (app.inherited first last).foldl app.mark
      { s with base := s.base.write offset data }) :
    app.Mirrors s' (file.write offset data) ∧
      (∀ page, app.Resolved s' page ↔ app.Resolved s page ∨ first ≤ page ∧ page ≤ last) ∧
      s'.cursor = s.cursor := by
  have hsize := app.size_pos
  have hpos := length_pos_iff.2 hdata
  have hfirst₀ : 0 < first := by rw [hfirst]; exact Nat.succ_pos _
  obtain ⟨hbase, hceiling, hcursor, hpresent, hcount⟩ :=
    foldl_mark app (app.inherited first last) { s with base := s.base.write offset data }
  rw [← hs'] at hbase hceiling hcursor hpresent hcount
  dsimp only at hbase hceiling hcursor hpresent hcount
  have hresolved : ∀ page, app.Resolved s' page ↔
      app.Resolved s page ∨ first ≤ page ∧ page ≤ last := by
    intro page
    unfold Resolved inherited at *
    rw [hceiling, hpresent, mem_range'_1, mem_pages]
    have := h.ceiling
    constructor
    · rintro (hlt | (hpresent | ⟨hmem, -⟩) | hlock)
      · exact .inl (.inl hlt)
      · exact .inl (.inr (.inl hpresent))
      · exact .inr (by omega)
      · exact .inl (.inr (.inr hlock))
    · rintro ((hlt | hpresent | hlock) | hmem)
      · exact .inl hlt
      · exact .inr (.inl (.inl hpresent))
      · exact .inr (.inr hlock)
      · by_cases hlock : page = app.lock
        · exact .inr (.inr hlock)
        · by_cases hin : page ≤ app.count
          · exact .inr (.inl (.inr ⟨by omega, hlock, by omega, hin⟩))
          · exact .inl (by omega)
  -- the bytes of the first and the last page that are not overwritten
  have hedge : ∀ i, i < offset ∨ offset + data.length ≤ i → first ≤ app.pageOf i →
      app.pageOf i ≤ last → app.Resolved s (app.pageOf i) := by
    intro i hi hge hle
    subst hfirst hlast
    unfold pageOf at hge hle ⊢
    rcases hi with hi | hi
    · have heq : i / app.size = offset / app.size :=
        Nat.le_antisymm (Nat.div_le_div_right (by omega)) (by omega)
      rw [heq]
      refine hbegin.resolve_left fun haligned => ?_
      have h₁ := Nat.div_add_mod offset app.size
      have h₂ := Nat.div_add_mod i app.size
      rw [heq] at h₂
      omega
    · have heq : i / app.size = (offset + data.length - 1) / app.size :=
        Nat.le_antisymm (by omega) (Nat.div_le_div_right (by omega))
      rw [heq]
      refine hend.resolve_left fun haligned => ?_
      obtain ⟨k, hk⟩ := Nat.dvd_of_mod_eq_zero haligned
      have h₁ : (offset + data.length - 1) / app.size < k := by
        rw [Nat.div_lt_iff_lt_mul hsize, Nat.mul_comm]
        omega
      have h₂ : k ≤ i / app.size := by
        rw [Nat.le_div_iff_mul_le hsize, Nat.mul_comm]
        omega
      omega
  have hwritten : ∀ i, offset ≤ i → i < offset + data.length →
      first ≤ app.pageOf i ∧ app.pageOf i ≤ last := by
    intro i hge hlt
    rw [hfirst, hlast]
    exact pageOf_mem hge hlt
  refine ⟨⟨?_, ?_, ?_, fun i hi => ?_, fun i hi => ?_, fun page hlt hpage => ?_,
    hcount h.resolved, ?_, fun page hpage hlt => ?_⟩, hresolved, hcursor⟩
  · rw [hbase, size_write hdata, size_write hdata, h.size]
  · rw [hceiling]
    exact h.ceiling
  · rw [hceiling, hbase, size_write hdata]
    exact le_max_of_le_left h.room
  · rw [hbase]
    by_cases hin : offset ≤ i ∧ i < offset + data.length
    · rw [byte_write_of_mem hin.1 hin.2, byte_write_of_mem hin.1 hin.2]
    · rw [byte_write_of_not_mem (by omega), byte_write_of_not_mem (by omega)]
      rcases (hresolved _).1 hi with hi | hi
      · exact h.bytes i hi
      · exact h.bytes i (hedge i (by omega) hi.1 hi.2)
  · have hout : i < offset ∨ offset + data.length ≤ i := by
      by_contra hin
      exact hi ((hresolved _).2 (.inr (hwritten i (by omega) (by omega))))
    rw [byte_write_of_not_mem hout]
    exact h.root i fun hold => hi ((hresolved _).2 (.inl hold))
  · rw [hceiling] at hlt
    exact (hpresent page).2 (.inl (h.cut page hlt hpage))
  · rw [hcursor]
    exact h.start
  · rw [hcursor] at hlt
    exact (hresolved page).2 (.inl (h.cursor page hpage hlt))

/-- The pages a truncation takes away. Where the ceiling is the last page number, the saturating sum
of the source would take a page that is kept. -/
theorem mem_cutPages (hkeep : keep ≤ u32Max) (hceiling : ceiling < u32Max) :
    page ∈ cutPages keep ceiling ↔ keep < page ∧ page ≤ ceiling := by
  unfold cutPages
  rw [mem_range'_1]
  omega

/-- A file that is cut off, or grown. -/
theorem Mirrors.truncate (h : app.Mirrors s file) {size keep : Nat} (hsize : size = keep * app.size)
    (hkeep : keep ≤ u32Max) (hbound : app.count < u32Max)
    (hs' : s' = { (cutPages keep s.ceiling).foldl app.mark
      { s with base := s.base.truncate size } with ceiling := min s.ceiling keep }) :
    app.Mirrors s' (file.truncate size) ∧
      (∀ page, app.Resolved s page ∨ keep < page → app.Resolved s' page) ∧
        s'.cursor = s.cursor := by
  have hpagesize := app.size_pos
  obtain ⟨hbase, -, hcursor, hpresent, hcount⟩ :=
    foldl_mark app (cutPages keep s.ceiling) { s with base := s.base.truncate size }
  have hcut : ∀ page, page ∈ cutPages keep s.ceiling ↔ keep < page ∧ page ≤ s.ceiling :=
    fun page => mem_cutPages hkeep (lt_of_le_of_lt h.ceiling hbound)
  have hbase' : s'.base = s.base.truncate size := by rw [hs']; exact hbase
  have hceiling' : s'.ceiling = min s.ceiling keep := by rw [hs']
  have hcursor' : s'.cursor = s.cursor := by rw [hs']; exact hcursor
  have hpresent' : ∀ page, s'.present page = true ↔
      s.present page = true ∨ (keep < page ∧ page ≤ s.ceiling) ∧ page ∈ app.pages := by
    intro page
    rw [hs', ← hcut]
    exact hpresent page
  have hresolved : ∀ page, app.Resolved s page ∨ keep < page → app.Resolved s' page := by
    unfold Resolved
    intro page hpage
    rw [hceiling', hpresent']
    rcases hpage with (hlt | hpresent | hlock) | hlt
    · exact .inl (by omega)
    · exact .inr (.inl (.inl hpresent))
    · exact .inr (.inr hlock)
    · exact .inl (by omega)
  have hpageOf : ∀ i, app.pageOf i ≤ keep ↔ i < size := by
    intro i
    rw [hsize, ← Nat.div_lt_iff_lt_mul hpagesize]
    exact Nat.succ_le_iff
  refine ⟨⟨?_, ?_, ?_, fun i hi => ?_, fun i hi => ?_, fun page hlt hpage => ?_, ?_, ?_,
    fun page hpage hlt => ?_⟩, hresolved, hcursor'⟩
  · rw [hbase']
    rfl
  · rw [hceiling']
    exact le_trans (min_le_left _ _) h.ceiling
  · rw [hceiling', hbase']
    refine le_trans (Nat.mul_le_mul_right _ (min_le_right _ _)) (le_of_eq ?_)
    exact hsize.symm
  · rw [hbase']
    by_cases hin : i < size
    · rw [byte_truncate_of_lt hin, byte_truncate_of_lt hin]
      refine h.bytes i ?_
      have hle := (hpageOf i).2 hin
      unfold Resolved at hi ⊢
      rw [hceiling', hpresent'] at hi
      rcases hi with hlt | (hpresent | ⟨⟨hlt, -⟩, -⟩) | hlock
      · exact .inl (by omega)
      · exact .inr (.inl hpresent)
      · omega
      · exact .inr (.inr hlock)
    · rw [byte_truncate_of_le (by omega), byte_truncate_of_le (by omega)]
  · have hle : app.pageOf i ≤ keep := Nat.le_of_not_lt fun hlt => hi (hresolved _ (.inr hlt))
    rw [byte_truncate_of_lt ((hpageOf i).1 hle)]
    exact h.root i fun hold => hi (hresolved _ (.inl hold))
  · rw [hceiling'] at hlt
    refine (hpresent' page).2 ?_
    by_cases hgone : s.ceiling < page
    · exact .inl (h.cut page hgone hpage)
    · exact .inr ⟨by omega, hpage⟩
  · rw [hs']
    exact hcount h.resolved
  · rw [hcursor']
    exact h.start
  · rw [hcursor'] at hlt
    exact hresolved page (.inl (h.cursor page hpage hlt))

theorem hydrateEdge_ends (h : app.Mirrors s file) (hpage : 0 < page) :
    (app.hydrateEdge env edge page).Ends s (fun _ s' => app.Led s file s' ∧
      (edge % app.size = 0 ∨ app.Resolved s' page)) (app.Led s file) := by
  unfold hydrateEdge
  split
  · next haligned => exact ends_pure.2 ⟨.refl h, .inl haligned⟩
  · exact (hydrate_ends h hpage).mono
      (fun _ s' hs' => ⟨hs'.1, .inr (hs'.2 page (le_refl _) (le_refl _))⟩) fun _ hs' => hs'

/-- A write does to the sparse file what it does to the ordinary one. -/
theorem xWrite_ends (h : app.Mirrors s file) (data : Bytes) (offset : Int) :
    (app.xWrite env data offset).Ends s (fun _ s' => app.Mirrors s' (file.write offset.toNat data) ∧
      (∀ page, app.Resolved s page → app.Resolved s' page) ∧ s'.cursor = s.cursor ∧
      ∀ i, offset.toNat ≤ i → i < offset.toNat + data.length → app.Resolved s' (app.pageOf i))
      (app.Led s file) := by
  unfold xWrite
  split
  · next hzero =>
    obtain rfl := length_eq_zero_iff.1 hzero
    refine ends_pure.2 ⟨?_, fun _ hpage => hpage, rfl, fun i hge hlt => ?_⟩
    · rw [write_nil]
      exact h
    · rw [length_nil] at hlt
      omega
  · next hlength =>
    rw [ends_bind]
    refine Ends.lift (fun range hrange => ?_) (.refl h)
    obtain ⟨first, last⟩ := range
    obtain ⟨-, -, hfirst, hlast⟩ := pageRange_ok hrange
    rw [Int.toNat_natCast] at hlast
    have hfirst₀ : 0 < first := by rw [hfirst]; exact Nat.succ_pos _
    have hlast₀ : 0 < last := by rw [hlast]; exact Nat.succ_pos _
    dsimp only
    rw [ends_bind]
    refine (hydrateEdge_ends h hfirst₀).mono (fun _ s₁ hs₁ => ?_) fun _ hs₁ => hs₁
    rw [ends_bind]
    refine (hydrateEdge_ends hs₁.1.mirrors hlast₀).mono (fun _ s₂ hs₂ => ?_)
      fun _ hs₂ => hs₁.1.trans hs₂
    have hled := hs₁.1.trans hs₂.1
    refine .reject_bind (fun _ => hled) fun _ => ?_
    rw [ends_change]
    obtain ⟨hmirrors, hresolved, hcursor⟩ := hs₂.1.mirrors.write
      (fun hnil => hlength (length_eq_zero_iff.2 hnil)) hfirst hlast
      (hs₁.2.imp_right (hs₂.1.leads.resolved _)) hs₂.2 rfl
    refine ⟨hmirrors, fun page hpage => (hresolved page).2 (.inl (hled.leads.resolved page hpage)),
      hcursor.trans hled.cursor, fun i hge hlt => (hresolved _).2 (.inr ?_)⟩
    rw [hfirst, hlast]
    exact pageOf_mem hge hlt

/-- A truncation does to the sparse file what it does to the ordinary one. -/
theorem xTruncate_ends (h : app.Mirrors s file) {size : Int} (hcount : app.count < u32Max) :
    (app.xTruncate env size).Ends s (fun _ s' => app.Mirrors s' (file.truncate size.toNat) ∧
      (∀ page, app.Resolved s page → app.Resolved s' page) ∧ s'.cursor = s.cursor ∧
      ∀ page, size.toNat / app.size < page → app.Resolved s' page) (fun s' => s' = s) := by
  unfold xTruncate
  refine .reject_bind (fun _ => rfl) fun hsize => ?_
  rw [Bool.or_eq_false_iff, bne_eq_false_iff_eq] at hsize
  refine .reject_bind (fun _ => rfl) fun hkeep => ?_
  rw [decide_eq_false_iff_not, gt_iff_lt, Nat.not_lt] at hkeep
  refine .reject_bind (fun _ => rfl) fun _ => ?_
  rw [ends_change]
  have hmul : size.toNat = size.toNat / app.size * app.size :=
    (Nat.div_mul_cancel (Nat.dvd_of_mod_eq_zero hsize.2)).symm
  have hceiling : ((cutPages (size.toNat / app.size) s.ceiling).foldl app.mark
      { s with base := s.base.truncate size.toNat }).ceiling = s.ceiling := (foldl_mark app _ _).2.1
  obtain ⟨hmirrors, hresolved, hcursor⟩ := h.truncate hmul hkeep hcount rfl
  dsimp only
  rw [hceiling]
  exact ⟨hmirrors, fun page hpage => hresolved page (.inl hpage), hcursor,
    fun page hpage => hresolved page (.inr hpage)⟩

/-! ## Hydration in steps -/

/-- A failed call, too, may have fetched pages and moved the cursor. -/
def Hydrated (app : SparseApp) (s : SparseState) (file : ByteFile) (s' : SparseState) : Prop :=
  app.Mirrors s' file ∧ app.Leads s s'

theorem Led.hydrated (h : app.Led s file s') : app.Hydrated s file s' := ⟨h.mirrors, h.leads⟩

section
variable (h : app.Mirrors s file)
include h

theorem readMissing_ends (hpage : 0 < page) :
    (app.readMissing env (s.present page) page).Ends s
      (fun _ s' => app.Led s file s' ∧ app.Resolved s' page) (app.Led s file) := by
  unfold readMissing
  split
  · have hsize := app.size_pos
    unfold readMain
    rw [ends_bind]
    refine (xRead_ends h _ _).mono (fun r s' hs' => ?_) fun _ hs' => hs'
    dsimp only
    rw [ends_rejectWhen]
    refine ⟨fun _ => hs'.1, fun _ => ⟨hs'.1, ?_⟩⟩
    have hfirst : app.pageOf ((page - 1) * app.size) = page := (pageOf_eq hpage).2 (by omega)
    have hresolved := hs'.2.2 ((page - 1) * app.size) (by omega) (by omega)
    rwa [hfirst] at hresolved
  · next hskip =>
    refine ends_pure.2 ⟨.refl h, ?_⟩
    by_cases hlock : page = app.lock
    · exact .inr (.inr hlock)
    · exact .inr (.inl (by simpa [hlock] using hskip))

theorem stepPage_ends :
    (app.stepPage env).Ends s (fun _ => app.Hydrated s file) (app.Hydrated s file) := by
  unfold stepPage
  rw [ends_bind, ends_look, ends_bind]
  refine (readMissing_ends h h.start).mono (fun _ s' hs' => ?_) fun _ hs' => hs'.hydrated
  refine .reject_bind (fun _ => hs'.1.hydrated) fun _ => ?_
  rw [ends_change]
  have hm := hs'.1.mirrors
  have hl := hs'.1.leads
  refine ⟨⟨hm.size, hm.ceiling, hm.room, hm.bytes, hm.root, hm.cut, hm.resolved, Nat.succ_pos _,
    fun page hpage hlt => ?_⟩, hl.size, hl.ceiling, Nat.le_succ_of_le hl.cursor,
      hl.resolved, hl.bytes⟩
  rcases Nat.lt_succ_iff_lt_or_eq.1 hlt with hlt | heq
  · exact hm.cursor page hpage hlt
  · rw [heq, hs'.1.cursor]
    exact hs'.2

theorem stepLoop_ends (start pages fuel : Nat) :
    (app.stepLoop env start pages fuel).Ends s (fun _ => app.Hydrated s file)
      (app.Hydrated s file) := by
  induction fuel generalizing s with
  | zero => exact ends_pure.2 ⟨h, .refl s⟩
  | succ fuel ih =>
    unfold stepLoop
    rw [ends_bind, ends_look]
    split
    · rw [ends_bind]
      refine (stepPage_ends h).mono (fun _ s' hs' => ?_) fun _ hs' => hs'
      exact (ih hs'.1).mono (fun _ s'' hs'' => ⟨hs''.1, hs'.2.trans hs''.2⟩)
        fun s'' hs'' => ⟨hs''.1, hs'.2.trans hs''.2⟩
    · exact ends_pure.2 ⟨h, .refl s⟩

theorem step_ends (pages : Nat) :
    (app.step env pages).Ends s (fun r s' => app.Hydrated s file s' ∧ r = app.hydration s')
      (app.Hydrated s file) := by
  unfold step
  rw [ends_bind, ends_look, ends_bind]
  refine (stepLoop_ends h _ _ _).mono (fun _ s' hs' => ?_) fun _ hs' => hs'
  rw [ends_bind, ends_look, ends_pure]
  exact ⟨hs', rfl⟩

end

end SparseApp

end Cellule
