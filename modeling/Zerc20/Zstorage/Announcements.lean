import Zerc20.Lib.Machine
import Zerc20.Lib.SortByKey
import Mathlib.Data.List.Range

/-!
# Announcements and their pages

The announcements of the storage canister (`zstorage/backend/storage/src/lib.rs`) and the two loops
that page through them: `scanReceivings` of `frontend/src/services/sdk/operations/scanner.ts` and the
loop of `cli/src/commands/scan_receive_transfers.rs`.

Ids count from zero, and a page starts after an id. The Rust loop keeps that id in an option; the
TypeScript loop keeps it in a number where zero says that there is none, so the announcement with
the id `0` can not be passed over. `paging_exact_iff` says when that shows.

Announcements arrive while a client pages: request `k` sees the state `S k`. A loop is run on fuel,
one unit for each request, and `none` is a loop that still runs.
-/

namespace Zerc20

namespace Zstorage

open Machine SortByKey

/-! ## The canister -/

def MAX_CIPHERTEXT_BYTES : ℕ := 16 * 1024

def MAX_IBE_CIPHERTEXT_BYTES : ℕ := 512

def DEFAULT_LIST_LIMIT : ℕ := 50

def MAX_LIST_LIMIT : ℕ := 200

structure AnnouncementInput where
  ibeCiphertext : List UInt8
  ciphertext : List UInt8
  nonce : List UInt8
  deriving DecidableEq

structure Announcement where
  id : ℕ
  ibeCiphertext : List UInt8
  ciphertext : List UInt8
  nonce : List UInt8
  createdAtNs : ℕ
  deriving DecidableEq

structure AnnouncementPage where
  announcements : List Announcement
  nextId : Option ℕ
  deriving DecidableEq

inductive AnnouncementError where
  | ibeCiphertextSize
  | ciphertextSize
  | nonceSize
  deriving DecidableEq

def AnnouncementError.text : AnnouncementError → String
  | .ibeCiphertextSize => "ibe_ciphertext size is invalid"
  | .ciphertextSize => "ciphertext size is invalid"
  | .nonceSize => "nonce must be 12 bytes (AES-GCM)"

def validateAnnouncement (input : AnnouncementInput) : Except AnnouncementError Unit := do
  require (¬ (input.ibeCiphertext = [] ∨ input.ibeCiphertext.length > MAX_IBE_CIPHERTEXT_BYTES))
    .ibeCiphertextSize
  require (¬ (input.ciphertext = [] ∨ input.ciphertext.length > MAX_CIPHERTEXT_BYTES))
    .ciphertextSize
  require (input.nonce.length = 12) .nonceSize

/-- The part of the canister's state that has the announcements. -/
structure Storage where
  announcements : List Announcement
  nextId : ℕ

/-- A call of `submit_announcement`, at the time the canister reads. -/
structure Submission where
  input : AnnouncementInput
  now : ℕ
  deriving DecidableEq

namespace Storage

def init : Storage := ⟨[], 0⟩

def submitAnnouncement (s : Storage) (x : Submission) : Except AnnouncementError Storage := do
  validateAnnouncement x.input
  return {
    announcements := s.announcements ++ [{
      id := s.nextId
      ibeCiphertext := x.input.ibeCiphertext
      ciphertext := x.input.ciphertext
      nonce := x.input.nonce
      createdAtNs := x.now }]
    nextId := s.nextId + 1 }

def step (s : Storage) (x : Submission) : Storage := commit s (s.submitAnnouncement x)

/-- The state after the calls `xs`. -/
def after (xs : List Submission) : Storage := run step init xs

/-- The loop of `list_announcements`. -/
def collect (startAfter : Option ℕ) (limit : ℕ) :
    List Announcement → List Announcement → List Announcement × Option ℕ
  | [], collected => (collected, none)
  | a :: rest, collected =>
    if startAfter.any fun start => a.id ≤ start then collect startAfter limit rest collected
    else if collected.length < limit then collect startAfter limit rest (collected ++ [a])
    else (collected, some a.id)

def listAnnouncements (s : Storage) (startAfter limit : Option ℕ) : AnnouncementPage :=
  let limit := min (limit.getD DEFAULT_LIST_LIMIT) MAX_LIST_LIMIT
  let (items, nextMarker) := collect startAfter limit s.announcements []
  { announcements := sortByKey Announcement.id items, nextId := nextMarker }

end Storage

/-! ## The clients -/

/-- How a client remembers where to go on. -/
structure Cursor (Place : Type) where
  startAfter : Place → Option ℕ
  ofLast : ℕ → Place

/-- `cursor === 0n ? undefined : cursor`. -/
def tsCursor : Cursor ℕ where
  startAfter cursor := if cursor = 0 then none else some cursor
  ofLast id := id

/-- `start_after`. -/
def rustCursor : Cursor (Option ℕ) where
  startAfter place := place
  ofLast := some

section

variable {ε α Place : Type} (S : ℕ → Storage) (pageSize : ℕ) (C : Cursor Place)
  (process : List Announcement → Except ε (List α))

/-- The loop of both clients, from request `k` on; `process` is what a client does with a page. -/
def scanLoop : ℕ → ℕ → Place → List α → Option (Except ε (List α))
  | 0, _, _, _ => none
  | fuel + 1, k, cursor, collected =>
    let page := (S k).listAnnouncements (C.startAfter cursor) (some pageSize)
    match page.announcements.getLast? with
    | none => some (.ok collected)
    | some last =>
      match process page.announcements with
      | .error e => some (.error e)
      | .ok items =>
        if page.nextId = none then some (.ok (collected ++ items))
        else scanLoop fuel (k + 1) (C.ofLast last.id) (collected ++ items)

/-- The loop of `scanReceivings`. -/
def tsLoop (startAfter : Option ℕ) (fuel : ℕ) : Option (Except ε (List α)) :=
  scanLoop S pageSize tsCursor process fuel 0 (startAfter.getD 0) []

/-- The loop of `scan_receive_transfers`. -/
def rustLoop (fuel : ℕ) : Option (Except ε (List α)) :=
  scanLoop S pageSize rustCursor process fuel 0 none []

end

/-! ## Pages -/

/-- The position of the first announcement after `startAfter`. -/
def firstAfter : Option ℕ → ℕ
  | none => 0
  | some start => start + 1

/-- Ids are positions. -/
structure Storage.Indexed (s : Storage) : Prop where
  ids : s.announcements.map Announcement.id = List.range s.announcements.length
  nextId : s.nextId = s.announcements.length

theorem Storage.step_indexed {s : Storage} (x : Submission) (hs : s.Indexed) :
    (s.step x).Indexed := by
  rcases commit_cases s (s.submitAnnouncement x) with ⟨-, heq⟩ | hok
  · rw [step, heq]
    exact hs
  · obtain ⟨_, -, hret⟩ := bind_eq_ok.mp hok
    have hstep : s.step x = _ := (Except.ok.inj hret).symm
    rw [hstep]
    refine ⟨?_, ?_⟩
    · rw [List.map_append, hs.ids, List.length_append, List.length_singleton, List.range_succ,
        List.map_singleton, hs.nextId]
    · rw [List.length_append, List.length_singleton, hs.nextId]

theorem Storage.after_indexed (xs : List Submission) : (after xs).Indexed :=
  run_induction (I := Indexed) ⟨rfl, rfl⟩ (fun _ x => step_indexed x) xs

/-- Announcements stay, at the front. -/
theorem Storage.after_mono {xs ys : List Submission} (hpre : xs <+: ys) :
    (after xs).announcements <+: (after ys).announcements := by
  obtain ⟨zs, rfl⟩ := hpre
  rw [after, after, run_append]
  refine run_rel (R := fun s t : Storage => s.announcements <+: t.announcements)
    (fun _ => List.prefix_refl _) (fun _ _ _ => List.IsPrefix.trans) ?_ _ zs
  intro s x
  rcases commit_cases s (s.submitAnnouncement x) with ⟨-, heq⟩ | hok
  · simp only [step, heq, List.prefix_refl]
  · obtain ⟨_, -, hret⟩ := bind_eq_ok.mp hok
    have hstep : s.step x = _ := (Except.ok.inj hret).symm
    rw [hstep]
    exact List.prefix_append _ _

/-- The loop of the canister takes the announcements after the cursor, up to the limit. -/
theorem Storage.collect_eq (startAfter : Option ℕ) {limit : ℕ} (as collected : List Announcement)
    (hle : collected.length ≤ limit) :
    collect startAfter limit as collected
      = (collected ++ (as.filter fun a => firstAfter startAfter ≤ a.id).take
          (limit - collected.length),
        ((as.filter fun a => firstAfter startAfter ≤ a.id)[limit - collected.length]?).map
          Announcement.id) := by
  induction as generalizing collected with
  | nil => simp [collect]
  | cons a as ih =>
    -- what is at or before the start is passed over
    have hskip : (startAfter.any fun start => decide (a.id ≤ start)) = true
        ↔ ¬ firstAfter startAfter ≤ a.id := by
      cases startAfter with
      | none => simp [firstAfter]
      | some start =>
        simp only [Option.any_some, decide_eq_true_eq, firstAfter]
        omega
    rw [collect]
    by_cases hfirst : firstAfter startAfter ≤ a.id
    · rw [if_neg (fun h => hskip.mp h hfirst), List.filter_cons_of_pos (by simpa using hfirst)]
      split
      -- there is room: taken, otherwise it is the next cursor
      · rename_i hlt
        rw [ih _ (by rw [List.length_append, List.length_singleton]; omega), List.length_append,
          List.length_singleton, show limit - collected.length = limit - (collected.length + 1) + 1
          by omega, List.take_succ_cons, List.getElem?_cons_succ, List.append_assoc]
        rfl
      · rw [show limit - collected.length = 0 by omega]
        simp
    · rw [if_pos (hskip.mpr hfirst), ih _ hle, List.filter_cons_of_neg (by simpa using hfirst)]

/-- As the ids count up, those after the cursor are a tail. -/
theorem filter_eq_drop {as : List Announcement} {b n : ℕ}
    (hids : as.map Announcement.id = List.range' b as.length) :
    (as.filter fun a => n ≤ a.id) = as.drop (n - b) := by
  induction as generalizing b with
  | nil => simp
  | cons a as ih =>
    rw [List.map_cons, List.length_cons, List.range'_succ, List.cons.injEq] at hids
    obtain ⟨rfl, hrest⟩ := hids
    by_cases hn : n ≤ a.id
    · rw [List.filter_cons_of_pos (by simpa using hn), ih hrest,
        Nat.sub_eq_zero_of_le (show n ≤ a.id + 1 by omega), Nat.sub_eq_zero_of_le hn]
      rfl
    · rw [List.filter_cons_of_neg (by simpa using hn), ih hrest,
        show n - a.id = n - (a.id + 1) + 1 by omega, List.drop_succ_cons]

/-- The announcements of a state, by position. -/
theorem Storage.Indexed.getElem? {s : Storage} (hs : s.Indexed) (i : ℕ) :
    (s.announcements[i]?).map Announcement.id
      = if i < s.announcements.length then some i else none := by
  rw [← List.getElem?_map, hs.ids]
  split
  · rename_i hi
    rw [List.getElem?_range hi]
  · rename_i hi
    rw [List.getElem?_eq_none (by rw [List.length_range]; omega)]

theorem Storage.Indexed.pairwise {s : Storage} (hs : s.Indexed) :
    s.announcements.Pairwise fun a b => a.id < b.id := by
  rw [← List.pairwise_map (f := Announcement.id), hs.ids]
  exact List.pairwise_lt_range

/-- **What a page holds**: as many announcements as asked for, from the first one on, and a marker if
there are more. -/
theorem Storage.Indexed.page {s : Storage} (hs : s.Indexed) (startAfter : Option ℕ)
    (pageSize : ℕ) :
    s.listAnnouncements startAfter (some pageSize)
      = ⟨(s.announcements.drop (firstAfter startAfter)).take (min pageSize MAX_LIST_LIMIT),
        if firstAfter startAfter + min pageSize MAX_LIST_LIMIT < s.announcements.length
        then some (firstAfter startAfter + min pageSize MAX_LIST_LIMIT) else none⟩ := by
  have hfilter : (s.announcements.filter fun a => firstAfter startAfter ≤ a.id)
      = s.announcements.drop (firstAfter startAfter) :=
    filter_eq_drop (b := 0) (hs.ids.trans List.range_eq_range')
  rw [listAnnouncements]
  simp only [Option.getD_some]
  rw [collect_eq startAfter _ _ (Nat.zero_le _), hfilter, List.length_nil, Nat.sub_zero,
    List.nil_append, List.getElem?_drop, hs.getElem?]
  congr 1
  refine List.Pairwise.insertionSort_eq ?_
  refine List.Pairwise.imp (R := fun a b : Announcement => a.id < b.id) (fun h => Nat.le_of_lt h) ?_
  exact (hs.pairwise.sublist (List.drop_sublist _ _)).sublist (List.take_sublist _ _)

/-! ## What the loops fetch -/

section

variable {Place : Type} (S : ℕ → Storage) (pageSize : ℕ) (C : Cursor Place)

/-- Request `k` of a client at `cursor`. -/
def request (k : ℕ) (cursor : Place) : AnnouncementPage :=
  (S k).listAnnouncements (C.startAfter cursor) (some pageSize)

/-- The client at `cursor` makes `n` requests, from request `k` on, and gets `pages`. -/
inductive Fetches : ℕ → ℕ → Place → List (List Announcement) → Prop where
  | empty (k : ℕ) (cursor : Place)
      (hpage : (request S pageSize C k cursor).announcements.getLast? = none) :
      Fetches 1 k cursor []
  | last (k : ℕ) (cursor : Place) (a : Announcement)
      (hpage : (request S pageSize C k cursor).announcements.getLast? = some a)
      (hnext : (request S pageSize C k cursor).nextId = none) :
      Fetches 1 k cursor [(request S pageSize C k cursor).announcements]
  | more (n k : ℕ) (cursor : Place) (a : Announcement) (pages : List (List Announcement))
      (hpage : (request S pageSize C k cursor).announcements.getLast? = some a)
      (hnext : (request S pageSize C k cursor).nextId ≠ none)
      (hrest : Fetches n (k + 1) (C.ofLast a.id) pages) :
      Fetches (n + 1) k cursor ((request S pageSize C k cursor).announcements :: pages)

end

section

variable {ε α Place : Type} {S : ℕ → Storage} {pageSize : ℕ} {C : Cursor Place}
  {process : List Announcement → Except ε (List α)}

/-- The loop by its first request. -/
theorem scanLoop_succ (fuel k : ℕ) (cursor : Place) (collected : List α) :
    scanLoop S pageSize C process (fuel + 1) k cursor collected
      = match (request S pageSize C k cursor).announcements.getLast? with
        | none => some (.ok collected)
        | some last =>
          match process (request S pageSize C k cursor).announcements with
          | .error e => some (.error e)
          | .ok items =>
            if (request S pageSize C k cursor).nextId = none then some (.ok (collected ++ items))
            else scanLoop S pageSize C process fuel (k + 1) (C.ofLast last.id)
              (collected ++ items) := rfl

/-- With enough fuel the loop processes the pages one after the other. -/
theorem Fetches.scanLoop_eq {n k : ℕ} {cursor : Place} {pages : List (List Announcement)}
    (hfetch : Fetches S pageSize C n k cursor pages) {fuel : ℕ} (hfuel : n ≤ fuel)
    (collected : List α) :
    scanLoop S pageSize C process fuel k cursor collected
      = some ((pages.mapM process).map fun items => collected ++ items.flatten) := by
  -- on the pages that are read; fuel is one for each
  induction hfetch generalizing fuel collected with
  | empty k cursor hpage =>
    obtain ⟨fuel, rfl⟩ := Nat.exists_eq_succ_of_ne_zero (show fuel ≠ 0 by omega)
    rw [scanLoop_succ, hpage]
    simp [Except.map, pure, Except.pure]
  | last k cursor a hpage hnext =>
    obtain ⟨fuel, rfl⟩ := Nat.exists_eq_succ_of_ne_zero (show fuel ≠ 0 by omega)
    rw [scanLoop_succ, hpage, List.mapM_cons]
    cases process (request S pageSize C k cursor).announcements with
    | error e => rfl
    | ok items =>
      show (if _ then _ else _) = _
      rw [if_pos hnext]
      simp [Except.map, bind, Except.bind, pure, Except.pure]
  | more n k cursor a pages hpage hnext hrest ih =>
    obtain ⟨fuel, rfl⟩ := Nat.exists_eq_succ_of_ne_zero (show fuel ≠ 0 by omega)
    rw [scanLoop_succ, hpage, List.mapM_cons]
    cases process (request S pageSize C k cursor).announcements with
    | error e => rfl
    | ok items =>
      show (if _ then _ else _) = _
      rw [if_neg hnext, ih (by omega)]
      cases pages.mapM process with
      | error e => rfl
      | ok rest => simp [Except.map, bind, Except.bind, pure, Except.pure]

/-- With less fuel a loop that does not fail still runs. -/
theorem Fetches.scanLoop_running {n k : ℕ} {cursor : Place} {pages : List (List Announcement)}
    (hfetch : Fetches S pageSize C n k cursor pages) {fuel : ℕ} (hfuel : fuel < n)
    (htotal : ∀ page, ∃ items, process page = .ok items) (collected : List α) :
    scanLoop S pageSize C process fuel k cursor collected = none := by
  induction hfetch generalizing fuel collected with
  | empty k cursor hpage =>
    obtain rfl : fuel = 0 := by omega
    rfl
  | last k cursor a hpage hnext =>
    obtain rfl : fuel = 0 := by omega
    rfl
  | more n k cursor a pages hpage hnext hrest ih =>
    cases fuel with
    | zero => rfl
    | succ fuel =>
      obtain ⟨items, hitems⟩ := htotal (request S pageSize C k cursor).announcements
      rw [scanLoop_succ, hpage, hitems]
      show (if _ then _ else _) = _
      rw [if_neg hnext]
      exact ih (by omega) _

/-- A loop that ended well has fetched its pages. -/
theorem fetches_of_ok {fuel k : ℕ} {cursor : Place} {collected result : List α}
    (hok : scanLoop S pageSize C process fuel k cursor collected = some (.ok result)) :
    ∃ n pages, n ≤ fuel ∧ Fetches S pageSize C n k cursor pages := by
  induction fuel generalizing k cursor collected with
  | zero => cases hok
  | succ fuel ih =>
    rw [scanLoop_succ] at hok
    split at hok
    · rename_i hpage
      exact ⟨1, [], by omega, .empty k cursor hpage⟩
    · rename_i a hpage
      split at hok
      · cases hok
      · split at hok
        · rename_i hnext
          exact ⟨1, _, by omega, .last k cursor a hpage hnext⟩
        · rename_i hnext
          obtain ⟨n, pages, hn, hrest⟩ := ih hok
          exact ⟨n + 1, _, by omega, .more n k cursor a pages hpage hnext hrest⟩

end

/-! ## Histories -/

/-- What the requests of one client see. -/
structure Growing (S : ℕ → Storage) : Prop where
  indexed : ∀ k, (S k).Indexed
  grows : ∀ k, (S k).announcements <+: (S (k + 1)).announcements
  stops : ∃ K, ∀ k, K ≤ k → S k = S K

/-- A storage to which is submitted, finitely often, is growing. -/
theorem growing_after {hist : ℕ → List Submission} (hgrow : ∀ k, hist k <+: hist (k + 1))
    (hstop : ∃ K, ∀ k, K ≤ k → hist k = hist K) : Growing fun k => Storage.after (hist k) where
  indexed k := Storage.after_indexed (hist k)
  grows k := Storage.after_mono (hgrow k)
  stops := by
    obtain ⟨K, hK⟩ := hstop
    exact ⟨K, fun k hk => by rw [hK k hk]⟩

variable {S : ℕ → Storage}

/-- A later storage starts with the earlier one. -/
theorem Growing.mono (hS : Growing S) {j k : ℕ} (hjk : j ≤ k) :
    (S j).announcements <+: (S k).announcements := by
  induction k, hjk using Nat.le_induction with
  | base => exact List.prefix_refl _
  | succ k _ ih => exact ih.trans (hS.grows k)

theorem Growing.bounded (hS : Growing S) : ∃ N, ∀ k, (S k).announcements.length ≤ N := by
  obtain ⟨K, hK⟩ := hS.stops
  refine ⟨(S K).announcements.length, fun k => ?_⟩
  rcases Nat.le_total k K with hle | hle
  · exact (hS.mono hle).length_le
  · rw [hK k hle]

/-- The request that gets everything there is. -/
theorem Growing.fetches_last (hS : Growing S) {pageSize : ℕ} {Place : Type} {C : Cursor Place}
    (k : ℕ) (cursor : Place) (hshort : (S k).announcements.length
      ≤ firstAfter (C.startAfter cursor) + min pageSize MAX_LIST_LIMIT) :
    ∃ pages, Fetches S pageSize C 1 k cursor pages
      ∧ pages.flatten = (S k).announcements.drop (firstAfter (C.startAfter cursor)) := by
  have hpage := (hS.indexed k).page (C.startAfter cursor) pageSize
  have hall : ((S k).announcements.drop (firstAfter (C.startAfter cursor))).take
      (min pageSize MAX_LIST_LIMIT)
      = (S k).announcements.drop (firstAfter (C.startAfter cursor)) :=
    List.take_of_length_le (by rw [List.length_drop]; omega)
  rw [hall, if_neg (by omega)] at hpage
  have hannouncements : (request S pageSize C k cursor).announcements
      = (S k).announcements.drop (firstAfter (C.startAfter cursor)) := by rw [request, hpage]
  cases hlast : (request S pageSize C k cursor).announcements.getLast? with
  | none =>
    refine ⟨[], .empty k cursor hlast, ?_⟩
    rw [List.getLast?_eq_none_iff, hannouncements] at hlast
    exact hlast.symm
  | some a =>
    refine ⟨_, .last k cursor a hlast (by rw [request, hpage]), ?_⟩
    rw [List.flatten_singleton, hannouncements]

/-- **Paging**: if the client goes on where a full page ended, it gets everything from its first
position on, up to the size the canister has at its last request. -/
theorem Growing.fetches (hS : Growing S) {pageSize : ℕ} (hsize : 1 ≤ pageSize)
    {Place : Type} {C : Cursor Place} {N : ℕ} (hN : ∀ k, (S k).announcements.length ≤ N) (k : ℕ)
    (cursor : Place)
    (hplace : ∀ i, firstAfter (C.startAfter cursor) + min pageSize MAX_LIST_LIMIT ≤ i + 1 →
      firstAfter (C.startAfter (C.ofLast i)) = i + 1) :
    ∃ n pages, Fetches S pageSize C (n + 1) k cursor pages
      ∧ pages.flatten = (S (k + n)).announcements.drop (firstAfter (C.startAfter cursor)) := by
  have hlimit : 1 ≤ min pageSize MAX_LIST_LIMIT := le_min hsize (by decide)
  -- every page but the last one is full, so the position gains on the bound
  induction hd : N - firstAfter (C.startAfter cursor) using Nat.strong_induction_on
    generalizing k cursor with
  | _ d ih =>
    have hpage := (hS.indexed k).page (C.startAfter cursor) pageSize
    generalize hf : firstAfter (C.startAfter cursor) = f at hpage hplace hd
    generalize hlimitEq : min pageSize MAX_LIST_LIMIT = limit at hlimit hpage hplace ih
    have hannouncements : (request S pageSize C k cursor).announcements
        = ((S k).announcements.drop f).take limit := by rw [request, hpage]
    have hnext : (request S pageSize C k cursor).nextId
        = if f + limit < (S k).announcements.length then some (f + limit) else none := by
      rw [request, hpage]
    by_cases hmore : f + limit < (S k).announcements.length
    · rw [if_pos hmore] at hnext
      obtain ⟨a, ha⟩ : ∃ a, (S k).announcements[f + limit - 1]? = some a :=
        ⟨_, List.getElem?_eq_getElem (by omega)⟩
      have hid : a.id = f + limit - 1 := by
        have hget := (hS.indexed k).getElem? (f + limit - 1)
        rw [ha, if_pos (by omega)] at hget
        exact Option.some.inj hget
      have hlast : (request S pageSize C k cursor).announcements.getLast? = some a := by
        rw [hannouncements, List.getLast?_eq_getElem?, List.length_take, List.length_drop,
          List.getElem?_take_of_lt (by omega), List.getElem?_drop,
          show f + (min limit ((S k).announcements.length - f) - 1) = f + limit - 1 by omega]
        exact ha
      have hfirst : firstAfter (C.startAfter (C.ofLast a.id)) = f + limit := by
        rw [hplace a.id (by omega)]
        omega
      have hlen := hN k
      obtain ⟨n, pages, hfetch, hflat⟩ := ih (N - (f + limit)) (by omega) (k + 1) (C.ofLast a.id)
        (by rw [hfirst]; exact fun i hi => hplace i (by omega)) (by rw [hfirst])
      refine ⟨n + 1, _, .more (n + 1) k cursor a pages hlast (by rw [hnext]; simp) hfetch, ?_⟩
      rw [List.flatten_cons, hflat, hfirst, hannouncements]
      -- the page is still there at the last request
      obtain ⟨rest, hrest⟩ := hS.mono (show k ≤ k + 1 + n by omega)
      rw [show k + (n + 1) = k + 1 + n by omega, ← hrest,
        List.drop_append_of_le_length (by omega), List.drop_append_of_le_length (by omega),
        ← List.append_assoc, ← List.drop_drop, List.take_append_drop]
    · rw [← hf]
      exact ⟨0, hS.fetches_last k cursor (by rw [hf, hlimitEq]; omega)⟩

/-! ## The two loops -/

/-- The loop ends, and at its last request it has processed, in the order of their ids, exactly
the announcements after `startAfter` that the canister holds then. -/
def Exact (S : ℕ → Storage) (startAfter : Option ℕ)
    (loop : ℕ → Option (Except Empty (List Announcement))) : Prop :=
  ∃ n processed, loop n = none ∧ loop (n + 1) = some (.ok processed)
    ∧ processed = ((S n).announcements.filter fun a => startAfter.all fun start => start < a.id)
    ∧ processed.Pairwise fun a b => a.id < b.id

variable {pageSize : ℕ} {Place : Type} {C : Cursor Place}

/-- What a client does with a page, for the question which announcements it processes. -/
def processAll (page : List Announcement) : Except Empty (List Announcement) := .ok page

/-- Handling the pages of the example changes nothing. -/
theorem mapM_processAll (pages : List (List Announcement)) : pages.mapM processAll = .ok pages := by
  have hall : pages.mapM processAll = .ok (pages.map fun page => page) :=
    mapM_eq_ok fun _ _ => rfl
  rwa [List.map_id'] at hall

/-- The pages of a client are determined. -/
theorem Fetches.flatten_unique {n n' k : ℕ} {cursor : Place}
    {pages pages' : List (List Announcement)}
    (hfetch : Fetches S pageSize C n k cursor pages)
    (hfetch' : Fetches S pageSize C n' k cursor pages') : pages.flatten = pages'.flatten := by
  have hdone : scanLoop S pageSize C processAll (max n n') k cursor []
      = some ((pages.mapM processAll).map fun items => [] ++ items.flatten) :=
    hfetch.scanLoop_eq (le_max_left n n') []
  rw [hfetch'.scanLoop_eq (le_max_right n n') [], mapM_processAll, mapM_processAll] at hdone
  exact (Except.ok.inj (Option.some.inj hdone)).symm

/-- A loop that works item by item, on the pages that it fetches. -/
theorem Fetches.scanLoop_ok_iff {ε α : Type} {process : List Announcement → Except ε (List α)}
    {Fine : Announcement → Prop} {kept : Announcement → Option α}
    (hprocess : ∀ page ys, process page = .ok ys
      ↔ (∀ a ∈ page, Fine a) ∧ ys = page.filterMap kept)
    {n k : ℕ} {cursor : Place} {pages : List (List Announcement)}
    (hfetch : Fetches S pageSize C n k cursor pages) {items : List α} :
    (∃ fuel, scanLoop S pageSize C process fuel k cursor [] = some (.ok items))
      ↔ (∀ a ∈ pages.flatten, Fine a) ∧ items = pages.flatten.filterMap kept := by
  constructor
  -- a loop that ends has read some pages, and they are the same
  · rintro ⟨fuel, hok⟩
    obtain ⟨m, pages', hm, hfetch'⟩ := fetches_of_ok hok
    rw [hfetch'.scanLoop_eq hm] at hok
    rw [hfetch.flatten_unique hfetch']
    cases hresults : pages'.mapM process with
    | error e => rw [hresults] at hok; cases Option.some.inj hok
    | ok results =>
      rw [hresults] at hok
      obtain ⟨hfine, rfl⟩ := (mapM_pages_eq_ok hprocess).mp hresults
      refine ⟨hfine, ?_⟩
      rw [List.filterMap_flatten]
      exact (Except.ok.inj (Option.some.inj hok)).symm
  · rintro ⟨hfine, rfl⟩
    refine ⟨n, ?_⟩
    rw [hfetch.scanLoop_eq le_rfl, (mapM_pages_eq_ok hprocess).mpr ⟨hfine, rfl⟩,
      List.filterMap_flatten]
    rfl

/-- The announcements after the cursor, as a tail of the storage. -/
theorem filter_after (hS : Growing S) (startAfter : Option ℕ) (k : ℕ) :
    ((S k).announcements.filter fun a => startAfter.all fun start => start < a.id)
      = (S k).announcements.drop (firstAfter startAfter) := by
  have hdrop := filter_eq_drop (b := 0) (n := firstAfter startAfter)
    ((hS.indexed k).ids.trans List.range_eq_range')
  rw [Nat.sub_zero] at hdrop
  rw [← hdrop]
  refine List.filter_congr fun a _ => ?_
  cases startAfter with
  | none => simp [firstAfter]
  | some start => rfl

/-- Pages that together are the whole storage deliver every announcement once. -/
theorem exact_of_fetches (hS : Growing S) {startAfter : Option ℕ} {cursor : Place} {n : ℕ}
    {pages : List (List Announcement)} (hfetch : Fetches S pageSize C (n + 1) 0 cursor pages)
    (hflat : pages.flatten = (S n).announcements.drop (firstAfter startAfter)) :
    Exact S startAfter fun fuel => scanLoop S pageSize C processAll fuel 0 cursor [] := by
  refine ⟨n, pages.flatten, ?_, ?_, ?_, ?_⟩
  · exact hfetch.scanLoop_running (Nat.lt_succ_self n) (fun page => ⟨page, rfl⟩) []
  · show scanLoop S pageSize C processAll (n + 1) 0 cursor [] = _
    rw [hfetch.scanLoop_eq le_rfl, mapM_processAll]
    rfl
  · rw [hflat, filter_after hS]
  · rw [hflat]
    exact (hS.indexed n).pairwise.sublist (List.drop_sublist _ _)

/-- The command line's cursor is the last id of a page, so its pages follow each other without a
gap. -/
theorem rust_fetches (hS : Growing S) (hsize : 1 ≤ pageSize) :
    ∃ n pages, Fetches S pageSize rustCursor (n + 1) 0 none pages
      ∧ pages.flatten = (S n).announcements := by
  obtain ⟨N, hN⟩ := hS.bounded
  obtain ⟨n, pages, hfetch, hflat⟩ :=
    hS.fetches (C := rustCursor) hsize hN 0 none fun i _ => rfl
  rw [Nat.zero_add] at hflat
  exact ⟨n, pages, hfetch, hflat⟩

/-- The pages of the TypeScript client when `0` is no place it can be at. -/
theorem ts_fetches (hS : Growing S) (hsize : 1 ≤ pageSize) {startAfter : Option ℕ}
    (hzero : startAfter ≠ some 0)
    (hsmall : ¬ (startAfter = none ∧ pageSize = 1 ∧ 2 ≤ (S 0).announcements.length)) :
    ∃ n pages, Fetches S pageSize tsCursor (n + 1) 0 (startAfter.getD 0) pages
      ∧ pages.flatten = (S n).announcements.drop (firstAfter startAfter) := by
  obtain ⟨N, hN⟩ := hS.bounded
  -- the usual case, in which a page moves the cursor
  have hfull : ∀ cursor, tsCursor.startAfter cursor = startAfter →
      (∀ i, firstAfter startAfter + min pageSize MAX_LIST_LIMIT ≤ i + 1 → i ≠ 0) →
      ∃ n pages, Fetches S pageSize tsCursor (n + 1) 0 cursor pages
        ∧ pages.flatten = (S n).announcements.drop (firstAfter startAfter) := by
    intro cursor hstart hpos
    obtain ⟨n, pages, hfetch, hflat⟩ :=
      hS.fetches (C := tsCursor) hsize hN 0 cursor fun i hi => by
        show firstAfter (if i = 0 then none else some i) = _
        rw [if_neg (hpos i (hstart ▸ hi))]
        rfl
    rw [Nat.zero_add, hstart] at hflat
    exact ⟨n, pages, hfetch, hflat⟩
  cases startAfter with
  | none =>
    -- with pages of one the cursor stays at zero, so all must be on the first
    by_cases hone : pageSize = 1
    · subst hone
      have hfew : (S 0).announcements.length ≤ 1 := by
        by_contra hmany
        exact hsmall ⟨rfl, rfl, by omega⟩
      obtain ⟨pages, hfetch, hflat⟩ := hS.fetches_last (C := tsCursor) 0 0
        (by rw [show min 1 MAX_LIST_LIMIT = 1 from rfl]; omega)
      exact ⟨0, pages, hfetch, hflat⟩
    · have hlimit : 2 ≤ min pageSize MAX_LIST_LIMIT := le_min (by omega) (by decide)
      exact hfull 0 rfl fun i hi => by omega
  | some start =>
    have hpos : start ≠ 0 := fun h => hzero (by rw [h])
    exact hfull start (if_neg hpos) fun i hi => by
      simp only [firstAfter] at hi
      omega

/-- The first page of a client that starts at the front. -/
theorem Growing.firstPage (hS : Growing S) (hsize : 1 ≤ pageSize) {k : ℕ} {a : Announcement}
    {as : List Announcement} (hfirst : (S k).announcements = a :: as) (cursor : Place)
    (hstart : C.startAfter cursor = none) :
    a.id = 0 ∧ ∃ rest, (request S pageSize C k cursor).announcements = a :: rest := by
  refine ⟨?_, ?_⟩
  · have hget := (hS.indexed k).getElem? 0
    rw [hfirst, if_pos (by rw [List.length_cons]; omega)] at hget
    exact Option.some.inj hget
  · obtain ⟨limit, hlimit⟩ := Nat.exists_eq_succ_of_ne_zero
      (show min pageSize MAX_LIST_LIMIT ≠ 0 from Nat.ne_of_gt (le_min hsize (by decide)))
    rw [request, hstart, (hS.indexed k).page, hfirst, hlimit]
    exact ⟨as.take limit, rfl⟩

/-- With pages of one announcement the TypeScript loop stays at the announcement `0`. -/
theorem tsLoop_stuck (hS : Growing S) (hmany : 2 ≤ (S 0).announcements.length) (fuel k : ℕ)
    (collected : List Announcement) :
    scanLoop S 1 tsCursor processAll fuel k 0 collected = none := by
  -- the first announcement has id 0, so the cursor never moves
  induction fuel generalizing k collected with
  | zero => rfl
  | succ fuel ih =>
    have hlength : 2 ≤ (S k).announcements.length := hmany.trans (hS.mono (Nat.zero_le k)).length_le
    have hpage : request S 1 tsCursor k 0
        = ⟨((S k).announcements.drop 0).take 1, some 1⟩ := by
      have hlimit : min 1 MAX_LIST_LIMIT = 1 := rfl
      rw [request, (hS.indexed k).page, hlimit]
      exact congrArg (AnnouncementPage.mk _) (if_pos (show 0 + 1 < _ by omega))
    obtain ⟨a, as, hfirst⟩ : ∃ a as, (S k).announcements = a :: as := by
      cases hcase : (S k).announcements with
      | nil => simp [hcase] at hlength
      | cons a as => exact ⟨a, as, rfl⟩
    have hid := (hS.firstPage (C := tsCursor) (le_refl 1) hfirst 0 rfl).1
    rw [scanLoop_succ, hpage, hfirst]
    show scanLoop S 1 tsCursor processAll fuel (k + 1) a.id (collected ++ [a]) = none
    rw [hid]
    exact ih _ _

/-- Asked to start after the announcement `0`, the TypeScript loop returns it. -/
theorem not_exact_zero (hS : Growing S) (hsize : 1 ≤ pageSize)
    (hheld : 0 < (S 0).announcements.length) :
    ¬ Exact S (some 0) (tsLoop S pageSize processAll (some 0)) := by
  rintro ⟨n, processed, -, hok, heq, -⟩
  obtain ⟨a, as, hfirst⟩ : ∃ a as, (S 0).announcements = a :: as := by
    cases hcase : (S 0).announcements with
    | nil => simp [hcase] at hheld
    | cons a as => exact ⟨a, as, rfl⟩
  obtain ⟨hid, rest, hrest⟩ := hS.firstPage (C := tsCursor) hsize hfirst 0 rfl
  obtain ⟨m, pages, hfuel, hfetch⟩ := fetches_of_ok hok
  have hpages : processed = pages.flatten := by
    have hdone : scanLoop S pageSize tsCursor processAll (n + 1) 0 0 []
        = some ((pages.mapM processAll).map fun items => [] ++ items.flatten) :=
      hfetch.scanLoop_eq hfuel []
    rw [mapM_processAll] at hdone
    exact Except.ok.inj (Option.some.inj (hok.symm.trans hdone))
  -- the first page starts with the announcement `0`
  have hmem : a ∈ processed := by
    rw [hpages]
    cases hfetch with
    | empty _ _ hpage =>
      rw [List.getLast?_eq_none_iff] at hpage
      exact absurd (hrest.symm.trans hpage) (List.cons_ne_nil _ _)
    | last _ _ _ hpage hnext =>
      rw [List.flatten_singleton]
      exact hrest ▸ List.mem_cons_self
    | more _ _ _ _ _ hpage hnext hfurther =>
      rw [List.flatten_cons]
      exact List.mem_append_left _ (hrest ▸ List.mem_cons_self)
  rw [heq, List.mem_filter] at hmem
  have hlt := hmem.2
  rw [Option.all_some, decide_eq_true_iff, hid] at hlt
  exact Nat.lt_irrefl 0 hlt

/-- **When paging is exact.** The Rust loop always is. The TypeScript loop is, unless it is asked to
start after the announcement `0`, or to start at the front with pages of one announcement when there
are more. -/
theorem paging_exact_iff (hist : ℕ → List Submission) (hgrow : ∀ k, hist k <+: hist (k + 1))
    (hstop : ∃ K, ∀ k, K ≤ k → hist k = hist K) (pageSize : ℕ) (hsize : 1 ≤ pageSize)
    (startAfter : Option ℕ)
    (hheld : ∀ i ∈ startAfter, i < (Storage.after (hist 0)).announcements.length) :
    let S := fun k => Storage.after (hist k)
    Exact S none (rustLoop S pageSize processAll)
      ∧ (Exact S startAfter (tsLoop S pageSize processAll startAfter)
        ↔ startAfter ≠ some 0
          ∧ ¬ (startAfter = none ∧ pageSize = 1 ∧ 2 ≤ (S 0).announcements.length)) := by
  intro S
  have hS : Growing S := growing_after hgrow hstop
  refine ⟨?_, ?_, ?_⟩
  · obtain ⟨n, pages, hfetch, hflat⟩ := rust_fetches hS hsize
    exact exact_of_fetches hS hfetch hflat
  -- start 0 is read as no start, and pages of one get stuck
  · intro hexact
    refine ⟨?_, ?_⟩
    · rintro rfl
      exact not_exact_zero hS hsize (hheld 0 rfl) hexact
    · rintro ⟨rfl, rfl, hmany⟩
      obtain ⟨n, processed, -, hok, -⟩ := hexact
      exact absurd ((tsLoop_stuck hS hmany (n + 1) 0 []).symm.trans hok) (by simp)
  · rintro ⟨hzero, hsmall⟩
    obtain ⟨n, pages, hfetch, hflat⟩ := ts_fetches hS hsize hzero hsmall
    exact exact_of_fetches hS hfetch hflat

namespace PagingExample

def submission : Submission := ⟨⟨[1], [2], List.replicate 12 0⟩, 5⟩

/-- Two announcements, and no more. -/
def hist (_ : ℕ) : List Submission := [submission, submission]

end PagingExample

/-- Paging by two while one more is submitted. -/
theorem paging_exact_two :
    Exact (fun k => Storage.after (PagingExample.hist k)) none
      (tsLoop (fun k => Storage.after (PagingExample.hist k)) 2 processAll none) := by
  refine (paging_exact_iff PagingExample.hist (fun _ => List.prefix_refl _) ⟨0, fun _ _ => rfl⟩ 2
    (by decide) none (by simp)).2.mpr ⟨by decide, ?_⟩
  rintro ⟨-, hone, -⟩
  exact absurd hone (by decide)

/-- One at a time, the TypeScript loop reads the first of two announcements for ever. -/
theorem paging_not_exact :
    ¬ Exact (fun k => Storage.after (PagingExample.hist k)) none
      (tsLoop (fun k => Storage.after (PagingExample.hist k)) 1 processAll none) := by
  rintro ⟨n, processed, -, hok, -⟩
  have hS : Growing fun k => Storage.after (PagingExample.hist k) :=
    growing_after (fun _ => List.prefix_refl _) ⟨0, fun _ _ => rfl⟩
  exact absurd ((tsLoop_stuck hS (by decide) (n + 1) 0 []).symm.trans hok) (by simp)

end Zstorage

end Zerc20
