import Rustqlite.Btree.Destroy
import Rustqlite.Schema.Table

/-!
# `PRAGMA integrity_check`

The check walks the freelist and every tree of the catalog.  It keeps one bit
for each page, which says that the page has been come across, and a list of
messages.  What a part of the walk adds to them is listed in order.
-/

namespace Rustqlite.Btree

open Foundation Format Pager Schema Reading

def PtrMapType.debug : PtrMapType → String
  | .rootPage => "RootPage"
  | .freePage => "FreePage"
  | .overflow1 => "Overflow1"
  | .overflow2 => "Overflow2"
  | .btree => "Btree"

def readPtrmap (usable : Nat) (pgno : UInt32) : Reading (PtrMapType × UInt32) :=
  let pm := ptrmapPageno usable pgno.toNat
  if pm = 0 then fail (.corrupt s!"ptrmap_get: page {pgno} has no ptrmap")
  else do
    let page ← getPage (UInt32.ofNat pm)
    if pgno.toNat ≤ pm then fail (.panic "attempt to subtract with overflow")
    else
      let off := ptrmapEntrySize * (pgno.toNat - pm - 1)
      if usable < off + ptrmapEntrySize then
        fail (.corrupt s!"ptrmap_get: offset {off} out of range")
      else do
        let ty ← (PtrMapType.fromCode (page.getD off 0) : Result _)
        return (ty, readBe32 (page.drop (off + 1)))

inductive Finding where
  /-- The page is referenced. -/
  | used (pgno : UInt32)
  | error (msg : String)
  deriving DecidableEq

section Walk

variable (s : PagerState)

/-! ## The freelist -/

def checkLeaf (leaf : UInt32) : Finding :=
  if leaf = 0 ∨ s.effectiveCount < leaf then .error s!"freelist leaf page {leaf} out of range"
  else .used leaf

/-- The next `left` pages that a trunk names, as far as there is room for them. -/
def checkLeaves (page : Bytes) : Nat → Nat → List Finding
  | 0, _ => []
  | left + 1, i =>
      let off := 8 + i * 4
      if s.geometry.usableSize < off + 4 then []
      else checkLeaf s (readBe32 (page.drop off)) :: checkLeaves page left (i + 1)

def Finding.isUsed : Finding → Bool
  | used _ => true
  | error _ => false

def checkFreelistLoop : Nat → UInt32 → UInt32 → Reading (List Finding)
  | fuel, trunk, count =>
      if trunk = 0 then
        if count ≠ s.header.freelistCount then
          pure [.error
            s!"freelist count {s.header.freelistCount} disagrees with actual count {count}"]
        else pure []
      else if s.effectiveCount < trunk then
        pure [.error s!"freelist trunk page {trunk} out of range"]
      else
        match fuel with
        | 0 => fail endless
        | fuel + 1 => do
            let page ← getPage trunk
            let next := readBe32 page
            let k := (readBe32 (page.drop 4)).toNat
            let tooMany := if s.geometry.usableSize / 4 - 2 < k then
              [Finding.error s!"freelist trunk page {trunk} has too many leaves ({k})"] else []
            let leaves := checkLeaves s page k 0
            let count := count + 1 + UInt32.ofNat (leaves.countP Finding.isUsed)
            let rest ← checkFreelistLoop fuel next count
            return .used trunk :: tooMany ++ leaves ++ rest

def checkFreelist (fuel : Nat) : Reading (List Finding) :=
  checkFreelistLoop s fuel s.header.firstFreelistTrunk 0

/-! ## Trees -/

def checkOverflowEntry (pgno prev host : UInt32) : Reading (List Finding) :=
  if s.autoVacuum && !isPtrmapPage s.geometry.usableSize pgno.toNat then do
    match ← (readPtrmap s.geometry.usableSize pgno).catching with
    | .error _ => return []
    | .ok (ty, parent) =>
        let expected := if prev = host then PtrMapType.overflow1 else .overflow2
        return (if ty ≠ expected then
          [.error s!"overflow page {pgno}: ptrmap type {ty.debug} should be {expected.debug}"]
          else []) ++
        if parent ≠ prev then
          [.error s!"overflow page {pgno}: ptrmap parent {parent} should be {prev}"]
        else []
  else pure []

/-- At most `left` more pages are visited, which is as many as the database has. -/
def checkChain (host : UInt32) : Nat → UInt32 → UInt32 → Reading (List Finding)
  | left, pgno, prev =>
      if pgno = 0 then pure []
      else
        match left with
        | 0 => pure [.error s!"overflow chain from page {host} has a cycle"]
        | left + 1 =>
            if s.effectiveCount < pgno then
              pure [.error s!"overflow page {pgno} out of range (host {host})"]
            else do
              let page ← getPage pgno
              let entry ← checkOverflowEntry s pgno prev host
              let rest ← checkChain host left (readBe32 page) pgno
              return .used pgno :: entry ++ rest

def checkOverflowChain (first host : UInt32) : Reading (List Finding) :=
  checkChain s host s.effectiveCount.toNat first host

def checkCell (pgno : UInt32) (page : Bytes) (hdr : PageHeader) (i : Nat) :
    Reading (List Finding) :=
  match hdr.cellPointer page i with
  | .error e => pure [.error s!"page {pgno} cell {i}: bad pointer ({e.message})"]
  | .ok off =>
      if s.geometry.usableSize ≤ off then
        pure [.error s!"page {pgno} cell {i}: pointer {off} beyond usable"]
      else if hdr.pageType.isLeaf then
        match (cellOverflow s.geometry.usableSize hdr.pageType page off).toOption.join with
        | some first => checkOverflowChain s first pgno
        | none => pure []
      else pure []

def checkEntry (depth : Nat) (pgno : UInt32) : Reading (List Finding) :=
  if s.autoVacuum && decide (1 < pgno) && !isPtrmapPage s.geometry.usableSize pgno.toNat then do
    match ← (readPtrmap s.geometry.usableSize pgno).catching with
    | .error e => return [.error s!"page {pgno}: ptrmap read failed ({e.message})"]
    | .ok (ty, _) =>
        let expected := if depth = 0 then PtrMapType.rootPage else .btree
        return if ty ≠ expected then
          [.error s!"page {pgno}: ptrmap type {ty.debug} should be {expected.debug}"] else []
  else pure []

def expectedType (isTable : Bool) (t : PageType) : Bool :=
  if isTable then t == .leafTable || t == .interiorTable
  else t == .leafIndex || t == .interiorIndex

variable (isTable : Bool) (name : String)

/-- `fuel` bounds the height of the tree, `depth` counts from its root. -/
def checkPage : Nat → Nat → UInt32 → Reading (List Finding)
  | 0, _, _ => fail (.panic "stack overflow")
  | fuel + 1, depth, pgno =>
      if s.effectiveCount < pgno then pure [.error s!"page {pgno} out of range (in {name})"]
      else do
        let page ← getPage pgno
        match PageHeader.parse page (btreeHeaderOffset pgno) with
        | .error e => return [.used pgno, .error s!"page {pgno}: bad header ({e.message})"]
        | .ok hdr =>
            if expectedType isTable hdr.pageType = false then
              return [.used pgno,
                .error s!"page {pgno} of {name} has wrong type {hdr.pageType.debug}"]
            else do
              let cells ← (List.range hdr.numCells).mapM (checkCell s pgno page hdr)
              let lefts ← (List.range (if hdr.pageType.isLeaf then 0 else hdr.numCells)).mapM
                fun i => do
                  let off ← (hdr.cellPointer page i : Result _)
                  let child ← (leftChildAt s.geometry.usableSize hdr.pageType page off : Result _)
                  checkPage fuel (depth + 1) child
              let last ← match hdr.rightMostPointer with
                | some right => checkPage fuel (depth + 1) right
                | none => pure []
              let entry ← checkEntry s depth pgno
              return .used pgno :: (cells.flatten ++ lefts.flatten ++ last ++ entry)

def checkObject (kindName : String) (fuel : Nat) (o : SchemaObject) : Reading (List Finding) :=
  if o.root = 0 ∨ s.effectiveCount < o.root then
    pure [.error s!"rootpage {o.root} out of range for {kindName} {o.name}"]
  else checkPage s isTable o.name fuel 0 o.root

end Walk

/-! ## The result -/

structure IntegrityCheck where
  errors : List String
  /-- The bit of page `i + 1`. -/
  referenced : List Bool

namespace IntegrityCheck

def new (pageCount : UInt32) : IntegrityCheck := ⟨[], List.replicate pageCount.toNat false⟩

def error (c : IntegrityCheck) (msg : String) : IntegrityCheck :=
  { c with errors := c.errors ++ ["*** in database main ***\n" ++ msg] }

def markReferenced (c : IntegrityCheck) (pgno : UInt32) : IntegrityCheck :=
  if 1 ≤ pgno.toNat ∧ pgno.toNat ≤ c.referenced.length then
    { c with referenced := c.referenced.set (pgno.toNat - 1) true }
  else c

def isReferenced (c : IntegrityCheck) (pgno : UInt32) : Bool :=
  if 1 ≤ pgno.toNat ∧ pgno.toNat ≤ c.referenced.length then
    c.referenced.getD (pgno.toNat - 1) false
  else false

def record (c : IntegrityCheck) : Finding → IntegrityCheck
  | .used pgno => c.markReferenced pgno
  | .error msg => c.error msg

def checkUsed (usable : Nat) (c : IntegrityCheck) (pgno : UInt32) : IntegrityCheck :=
  if isReservedPage usable pgno.toNat || c.isReferenced pgno then c
  else c.error s!"Page {pgno} is never used"

def finish (c : IntegrityCheck) : List (List Value) :=
  if c.errors = [] then [[.text "ok"]] else c.errors.map fun msg => [.text msg]

end IntegrityCheck

def pagesFromTwo (n : UInt32) : List UInt32 := (List.range' 2 (n.toNat - 1)).map UInt32.ofNat

def checkCatalog (s : PagerState) (fuel : Nat) (catalog : Catalog) : Reading (List Finding) := do
  let freelist ← checkFreelist s fuel
  let tables ← catalog.tables.mapM (checkObject s true "table" fuel)
  let indexes ← catalog.indexes.mapM (checkObject s false "index" fuel)
  return freelist ++ tables.flatten ++ indexes.flatten

def readIntegrity (s : PagerState) (fuel : Nat) (quick : Bool) : Reading (List (List Value)) := do
  let catalog ← readCatalog s.geometry.usableSize s.header.textEncoding fuel
  let found ← checkCatalog s fuel catalog
  let checker := found.foldl IntegrityCheck.record (.new s.effectiveCount)
  let checker :=
    if quick then checker
    else (pagesFromTwo s.effectiveCount).foldl (IntegrityCheck.checkUsed s.geometry.usableSize)
      checker
  return checker.finish

def integrityCheck (fuel : Nat) (quick : Bool) : PagerM (List (List Value)) := do
  let s ← FileM.getState
  (readIntegrity s fuel quick).run

def HasCatalog (p : PagerState × World DbFile) (catalog : Catalog) : Prop :=
  ∃ depth, (readCatalog p.1.geometry.usableSize p.1.header.textEncoding depth).eval
    (pageSeen p.1 p.2.disk) = .ok catalog

/-! ## When the check passes -/

section Passes

theorem prefix_ne_ok (msg : String) : "*** in database main ***\n" ++ msg ≠ "ok" := by
  intro h
  have hlen := congrArg String.length h
  rw [String.length_append] at hlen
  have hprefix : "*** in database main ***\n".length = 25 := by decide
  have hok : "ok".length = 2 := by decide
  omega

namespace IntegrityCheck

def Prefixed (c : IntegrityCheck) : Prop :=
  ∀ msg ∈ c.errors, ∃ text, msg = "*** in database main ***\n" ++ text

theorem Prefixed.error {c : IntegrityCheck} (h : c.Prefixed) (msg : String) :
    (c.error msg).Prefixed := by
  intro m hm
  rcases List.mem_append.mp hm with hm | hm
  · exact h m hm
  · exact ⟨msg, List.mem_singleton.mp hm⟩

theorem finish_eq_ok {c : IntegrityCheck} (h : c.Prefixed) :
    c.finish = [[.text "ok"]] ↔ c.errors = [] := by
  rw [finish]
  constructor
  · intro hok
    by_contra hne
    rw [if_neg hne] at hok
    obtain ⟨msg, rest, herrors⟩ := List.exists_cons_of_ne_nil hne
    obtain ⟨text, rfl⟩ := h msg (by rw [herrors]; exact List.mem_cons_self)
    rw [herrors, List.map_cons] at hok
    have htext := (List.cons.inj hok).1
    simp only [List.cons.injEq, Value.text.injEq, and_true] at htext
    exact prefix_ne_ok text htext
  · intro hnil
    rw [if_pos hnil]

@[simp] theorem referenced_error (c : IntegrityCheck) (msg : String) :
    (c.error msg).referenced = c.referenced := rfl

@[simp] theorem errors_error_ne_nil (c : IntegrityCheck) (msg : String) :
    (c.error msg).errors ≠ [] := by
  simp [IntegrityCheck.error]

@[simp] theorem errors_markReferenced (c : IntegrityCheck) (pgno : UInt32) :
    (c.markReferenced pgno).errors = c.errors := by
  rw [markReferenced]
  split_ifs <;> rfl

@[simp] theorem length_markReferenced (c : IntegrityCheck) (pgno : UInt32) :
    (c.markReferenced pgno).referenced.length = c.referenced.length := by
  rw [markReferenced]
  split_ifs <;> simp

theorem isReferenced_markReferenced (c : IntegrityCheck) (pgno q : UInt32) :
    (c.markReferenced pgno).isReferenced q = true ↔
      c.isReferenced q = true ∨
        q = pgno ∧ 1 ≤ q.toNat ∧ q.toNat ≤ c.referenced.length := by
  rw [markReferenced]
  by_cases hq : q = pgno
  · subst hq
    by_cases hin : 1 ≤ q.toNat ∧ q.toNat ≤ c.referenced.length
    · rw [if_pos hin]
      simp only [isReferenced, List.length_set, hin, true_and]
      rw [List.getD_eq_getElem?_getD, List.getElem?_set_self (by omega)]
      simp
    · rw [if_neg hin]
      simp [hin]
  · split_ifs with hin
    · have hne : pgno.toNat - 1 ≠ q.toNat - 1 ∨ q.toNat = 0 := by
        by_cases h0 : q.toNat = 0
        · exact .inr h0
        · refine .inl fun h => hq (UInt32.toNat_inj.mp ?_)
          omega
      simp only [isReferenced, List.length_set, hq, false_and, or_false]
      by_cases hq' : 1 ≤ q.toNat ∧ q.toNat ≤ c.referenced.length
      · rw [if_pos hq', if_pos hq', List.getD_eq_getElem?_getD, List.getD_eq_getElem?_getD,
          List.getElem?_set_ne (by omega)]
      · rw [if_neg hq', if_neg hq']
    · simp [hq]

theorem isReferenced_new (n q : UInt32) : (new n).isReferenced q = false := by
  rw [isReferenced]
  split_ifs
  · rw [new, List.getD_eq_getElem?_getD, List.getElem?_replicate]
    split_ifs <;> rfl
  · rfl

theorem isReferenced_error (c : IntegrityCheck) (msg : String) (q : UInt32) :
    (c.error msg).isReferenced q = c.isReferenced q := rfl

theorem record_foldl (found : List Finding) (c : IntegrityCheck) (hc : c.Prefixed) :
    (found.foldl record c).Prefixed ∧
      (found.foldl record c).referenced.length = c.referenced.length ∧
      ((found.foldl record c).errors = [] ↔
        c.errors = [] ∧ ∀ f ∈ found, f.isUsed = true) ∧
      ∀ q, (found.foldl record c).isReferenced q = true ↔
        c.isReferenced q = true ∨
          .used q ∈ found ∧ 1 ≤ q.toNat ∧ q.toNat ≤ c.referenced.length := by
  induction found generalizing c with
  | nil => simp [hc]
  | cons f found ih =>
      cases f with
      | used pgno =>
          have hpre : (c.markReferenced pgno).Prefixed := by
            intro m hm
            exact hc m (by simpa using hm)
          obtain ⟨h1, h2, h3, h4⟩ := ih (c.markReferenced pgno) hpre
          refine ⟨h1, h2.trans (length_markReferenced c pgno), ?_, fun q => ?_⟩
          · simp only [List.foldl_cons, record, h3, errors_markReferenced, List.forall_mem_cons,
              Finding.isUsed, true_and]
          · simp only [List.foldl_cons, record, h4, isReferenced_markReferenced,
              length_markReferenced, List.mem_cons, Finding.used.injEq]
            tauto
      | error msg =>
          obtain ⟨h1, h2, h3, h4⟩ := ih (c.error msg) (hc.error msg)
          refine ⟨h1, h2, ?_, fun q => ?_⟩
          · simp [record, h3, Finding.isUsed]
          · simp only [List.foldl_cons, record, h4, isReferenced_error, referenced_error,
              List.mem_cons, reduceCtorEq, false_or]

theorem checkUsed_foldl (usable : Nat) (pages : List UInt32) (c : IntegrityCheck)
    (hc : c.Prefixed) :
    (pages.foldl (checkUsed usable) c).Prefixed ∧
      ((pages.foldl (checkUsed usable) c).errors = [] ↔ c.errors = [] ∧
        ∀ q ∈ pages, isReservedPage usable q.toNat = true ∨ c.isReferenced q = true) := by
  induction pages generalizing c with
  | nil => simp [hc]
  | cons pgno pages ih =>
      rw [List.foldl_cons, checkUsed]
      split_ifs with hused
      · obtain ⟨h1, h2⟩ := ih c hc
        refine ⟨h1, h2.trans ?_⟩
        rw [List.forall_mem_cons]
        rw [Bool.or_eq_true] at hused
        tauto
      · obtain ⟨h1, h2⟩ := ih (c.error _) (hc.error _)
        refine ⟨h1, h2.trans ?_⟩
        rw [Bool.or_eq_true] at hused
        simp [hused]

end IntegrityCheck

theorem mem_pagesFromTwo {n q : UInt32} :
    q ∈ pagesFromTwo n ↔ 2 ≤ q.toNat ∧ q.toNat ≤ n.toNat := by
  rw [pagesFromTwo, List.mem_map]
  constructor
  · rintro ⟨k, hk, rfl⟩
    rw [List.mem_range'_1] at hk
    have := n.toNat_lt
    rw [UInt32.toNat_ofNat']
    omega
  · rintro ⟨h2, hle⟩
    refine ⟨q.toNat, ?_, UInt32.ofNat_toNat⟩
    rw [List.mem_range'_1]
    omega

def AllUsed (s : PagerState) (found : List Finding) : Prop :=
  (∀ f ∈ found, f.isUsed = true) ∧
    ∀ q : UInt32, 2 ≤ q.toNat → q.toNat ≤ s.effectiveCount.toNat →
      isReservedPage s.geometry.usableSize q.toNat = true ∨ .used q ∈ found

theorem finish_found_eq_ok (s : PagerState) (found : List Finding) :
    ((pagesFromTwo s.effectiveCount).foldl (IntegrityCheck.checkUsed s.geometry.usableSize)
      (found.foldl IntegrityCheck.record (.new s.effectiveCount))).finish = [[.text "ok"]] ↔
      AllUsed s found := by
  have hnew : (IntegrityCheck.new s.effectiveCount).Prefixed := fun _ hm => by cases hm
  obtain ⟨hpre, -, herrors, href⟩ := IntegrityCheck.record_foldl found _ hnew
  obtain ⟨hpre', herrors'⟩ := IntegrityCheck.checkUsed_foldl s.geometry.usableSize
    (pagesFromTwo s.effectiveCount) _ hpre
  rw [IntegrityCheck.finish_eq_ok hpre', herrors', herrors, AllUsed]
  refine and_congr (by simp [IntegrityCheck.new]) (forall_congr' fun q => ?_)
  rw [href, IntegrityCheck.isReferenced_new, mem_pagesFromTwo]
  have hlen : (IntegrityCheck.new s.effectiveCount).referenced.length = s.effectiveCount.toNat :=
    List.length_replicate
  rw [hlen]
  constructor
  · intro h h2 hle
    rcases h ⟨h2, hle⟩ with hres | hused
    · exact .inl hres
    · rcases hused with hfalse | hused
      · cases hfalse
      · exact .inr hused.1
  · rintro h ⟨h2, hle⟩
    rcases h h2 hle with hres | hused
    · exact .inl hres
    · exact .inr (.inr ⟨hused, by omega, hle⟩)

/-- The check answers `ok` exactly when its walks find no error and come to every page. -/
theorem readIntegrity_ok_iff {s : PagerState} {view : UInt32 → Result Bytes} {fuel : Nat} :
    (readIntegrity s fuel false).eval view = .ok [[.text "ok"]] ↔
      ∃ catalog found,
        (readCatalog s.geometry.usableSize s.header.textEncoding fuel).eval view = .ok catalog ∧
        (checkCatalog s fuel catalog).eval view = .ok found ∧ AllUsed s found := by
  simp only [readIntegrity, eval_bind, eval_pure, Result.bind_eq_ok, Bool.false_eq_true, if_false,
    Except.ok.injEq, finish_found_eq_ok]
  constructor
  · rintro ⟨catalog, hcatalog, found, hfound, hused⟩
    exact ⟨catalog, found, hcatalog, hfound, hused⟩
  · rintro ⟨catalog, found, hcatalog, hfound, hused⟩
    exact ⟨catalog, hcatalog, found, hfound, hused⟩

end Passes

end Rustqlite.Btree
