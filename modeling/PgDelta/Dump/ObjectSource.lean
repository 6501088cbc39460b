import PgDelta.Error

/-!
A dump that is read from an object store.

A byte stream that breaks is resumed with a GET from the offset already
delivered. The invariant is `ObjectSource.Holds s out`: `out` was handed to the
caller, and with the pending bytes it is what the store has delivered of the
object. What the store delivers is `ObjectStore.download`, and the source has the
part `ObjectSource.remaining` of it still to return.
-/

namespace PgDelta.Dump

open PgDelta.Lib

/-- How a byte stream is over. -/
inductive StreamEnd
  | ended
  | failed (message : String)
  deriving DecidableEq, Repr

/-- The body of a response. -/
structure ByteStream where
  pieces : List Bytes
  ending : StreamEnd
  deriving DecidableEq, Repr

/-- A store that holds one object. `get n offset` is what the `n`-th GET answers,
which asks for the bytes from an offset on: it fails, or its pieces are some of
these bytes. -/
structure ObjectStore where
  object : Bytes
  get : ℕ → ℕ → Except String ByteStream
  get_prefix : ∀ {n offset stream}, get n offset = .ok stream →
    stream.pieces.flatten <+: object.drop offset

def maxResumes : ℕ := 8

/-- Why a download fails: a GET is refused, a stream ends before the object does,
or one breaks there and is not asked for again. -/
inductive Fault
  | refused
  | truncated
  | exhausted
  deriving DecidableEq, Repr

/-- The bytes that come from an offset on, and the fault behind them: `stream`
answers the last GET, the next one is the `n`-th, and `budget` more may be issued. -/
def ObjectStore.follow (store : ObjectStore) (budget n offset : ℕ) (stream : ByteStream) :
    Bytes × Option Fault :=
  let got := stream.pieces.flatten
  if store.object.length ≤ offset + got.length then (got, none)
  else
    match stream.ending, budget with
    | .ended, _ => (got, some .truncated)
    | .failed _, 0 => (got, some .exhausted)
    | .failed _, budget + 1 =>
      match store.get n (offset + got.length) with
      | .error _ => (got, some .refused)
      | .ok stream =>
        let rest := store.follow budget (n + 1) (offset + got.length) stream
        (got ++ rest.1, rest.2)

/-- What a store delivers of its object. -/
def ObjectStore.download (store : ObjectStore) : Bytes × Option Fault :=
  match store.get 0 0 with
  | .error _ => ([], some .refused)
  | .ok stream => store.follow maxResumes 1 0 stream

theorem ObjectStore.follow_cons (store : ObjectStore) (budget n offset : ℕ) (piece : Bytes)
    (pieces : List Bytes) (ending : StreamEnd) :
    store.follow budget n offset ⟨piece :: pieces, ending⟩
      = (piece ++ (store.follow budget n (offset + piece.length) ⟨pieces, ending⟩).1,
          (store.follow budget n (offset + piece.length) ⟨pieces, ending⟩).2) := by
  rw [follow.eq_def, follow.eq_def store budget n (offset + piece.length)]
  simp only [List.flatten_cons, List.length_append, ← Nat.add_assoc]
  split
  next => rfl
  next =>
    cases ending with
    | ended => rfl
    | failed e =>
      cases budget with
      | zero => rfl
      | succ budget =>
        simp only
        split
        next => rfl
        next => rw [List.append_assoc]

def storeError (context e : String) : Error := .io (context ++ ": " ++ e)

structure ObjectSource where
  store : ObjectStore
  uri : String
  total : ℕ
  delivered : ℕ
  resumes : ℕ
  stream : Option ByteStream
  pending : Bytes
  /-- How many GETs have been issued. -/
  gets : ℕ

namespace ObjectSource

/-- Issue a GET from the current offset. -/
def openStream (s : ObjectSource) : Except Error Unit × ObjectSource :=
  match s.store.get s.gets s.delivered with
  | .error e =>
    (.error (storeError ("reading " ++ s.uri ++ " from byte " ++ toString s.delivered) e),
      { s with gets := s.gets + 1 })
  | .ok stream => (.ok (), { s with stream := some stream, gets := s.gets + 1 })

def start (store : ObjectStore) (total : ℕ) (uri : String) : Except Error Unit × ObjectSource :=
  openStream
    { store := store, uri := uri, total := total, delivered := 0, resumes := 0, stream := none
      pending := [], gets := 0 }

def broken (s : ObjectSource) : ObjectSource := { s with resumes := s.resumes + 1, stream := none }

theorem openStream_resumes (s : ObjectSource) : s.openStream.2.resumes = s.resumes := by
  unfold openStream
  split <;> rfl

def nextChunk (s : ObjectSource) : Except String (Option Bytes) × ObjectSource :=
  match s.stream with
  | none => (.ok none, s)
  | some ⟨piece :: pieces, ending⟩ =>
    (.ok (some piece),
      { s with delivered := s.delivered + piece.length, stream := some ⟨pieces, ending⟩ })
  | some ⟨[], .failed err⟩ =>
    if s.total ≤ s.delivered then (.ok none, { s with stream := none })
    else if _h : maxResumes ≤ s.resumes then
      (.error ("reading " ++ s.uri ++ " failed after " ++ toString s.resumes ++
        " resumes at byte " ++ toString s.delivered ++ " of " ++ toString s.total ++ ": " ++
        err), s)
    else
      match _ho : s.broken.openStream with
      | (.error e, s) => (.error e.display, s)
      | (.ok (), s) => nextChunk s
  | some ⟨[], .ended⟩ =>
    if s.delivered < s.total then
      (.error ("reading " ++ s.uri ++ " ended at byte " ++ toString s.delivered ++ " of " ++
        toString s.total ++ ": the transfer was truncated"), { s with stream := none })
    else (.ok none, { s with stream := none })
termination_by maxResumes - s.resumes
decreasing_by
  have hresumes := congrArg (fun r => r.2.resumes) _ho
  simp only [openStream_resumes, broken] at hresumes
  omega

/-! ### One chunk -/

/-- What holds of a source whose caller has been given `out`. -/
structure Holds (s : ObjectSource) (out : Bytes) : Prop where
  given : out ++ s.pending = s.store.object.take s.delivered
  delivered_le : s.delivered ≤ s.store.object.length
  total : s.total = s.store.object.length
  stream : ∀ b, s.stream = some b → b.pieces.flatten <+: s.store.object.drop s.delivered
  finished : s.stream = none → s.total ≤ s.delivered
  resumes_le : s.resumes ≤ maxResumes
  gets : s.gets = s.resumes + 1

theorem openStream_cases (s : ObjectSource) :
    (∃ e, s.store.get s.gets s.delivered = .error e) ∧
        s.openStream.2 = { s with gets := s.gets + 1 } ∧ (∃ e, s.openStream.1 = .error e) ∨
      ∃ b, s.store.get s.gets s.delivered = .ok b ∧
        s.openStream = (.ok (), { s with stream := some b, gets := s.gets + 1 }) := by
  unfold openStream
  split
  next e hget => exact .inl ⟨⟨e, hget⟩, rfl, _, rfl⟩
  next b hget => exact .inr ⟨b, hget, rfl⟩

/-- What one call of `next_chunk` leaves behind. -/
def ChunkSpec (s : ObjectSource) (out : Bytes) (r : Except String (Option Bytes) × ObjectSource) :
    Prop :=
  r.2.store = s.store ∧
    match r.1 with
    | .ok (some b) => { r.2 with pending := b }.Holds out
    | .ok none => r.2.Holds out ∧ r.2.pending = [] ∧ r.2.total ≤ r.2.delivered
    | .error _ => r.2.gets ≤ maxResumes + 1

theorem Holds.take_piece {s : ObjectSource} {out piece : Bytes} {pieces : List Bytes}
    {ending : StreamEnd} (hs : s.Holds out) (hpending : s.pending = [])
    (hstream : s.stream = some ⟨piece :: pieces, ending⟩) :
    { s with
      delivered := s.delivered + piece.length, stream := some ⟨pieces, ending⟩
      pending := piece }.Holds out := by
  have hgiven := hs.given
  have hle := hs.delivered_le
  obtain ⟨rest, hrest⟩ := hs.stream _ hstream
  rw [hpending, List.append_nil] at hgiven
  rw [List.flatten_cons, List.append_assoc] at hrest
  have hlength := congrArg List.length hrest
  simp only [List.length_append, List.length_drop] at hlength
  refine ⟨?_, ?_, hs.total, ?_, fun h => (by cases h), hs.resumes_le, hs.gets⟩
  · have htake : (s.store.object.drop s.delivered).take piece.length = piece := by
      rw [← hrest, List.take_left]
    rw [List.take_add, htake, ← hgiven]
  · change s.delivered + piece.length ≤ s.store.object.length
    omega
  · intro b hb
    obtain rfl := Option.some.inj hb
    refine ⟨rest, ?_⟩
    rw [← List.drop_drop, ← hrest, List.drop_left]

theorem Holds.resume {s : ObjectSource} {out : Bytes} (hs : s.Holds out)
    (hmax : s.resumes < maxResumes) {b : ByteStream}
    (hget : s.store.get s.gets s.delivered = .ok b) :
    { s.broken with stream := some b, gets := s.broken.gets + 1 }.Holds out := by
  have hgets := hs.gets
  refine ⟨hs.given, hs.delivered_le, hs.total, ?_, fun h => (by cases h), hmax, ?_⟩
  · intro b' hb'
    obtain rfl := Option.some.inj hb'
    exact s.store.get_prefix hget
  · simp only [broken]
    omega

theorem Holds.close {s : ObjectSource} {out : Bytes} (hs : s.Holds out)
    (hdone : s.total ≤ s.delivered) : { s with stream := none }.Holds out :=
  ⟨hs.given, hs.delivered_le, hs.total, fun _ h => (by cases h), fun _ => hdone, hs.resumes_le,
    hs.gets⟩

theorem nextChunk_spec {s : ObjectSource} {out : Bytes} (hs : s.Holds out)
    (hpending : s.pending = []) : s.ChunkSpec out s.nextChunk := by
  fun_induction nextChunk s with
  | case1 s hstream => exact ⟨rfl, hs, hpending, hs.finished hstream⟩
  | case2 s piece pieces ending hstream =>
    exact ⟨rfl, hs.take_piece hpending hstream⟩
  | case3 s err hstream hdone => exact ⟨rfl, hs.close hdone, hpending, hdone⟩
  | case4 s err hstream hdone hmax =>
    have hgets := hs.gets
    have hresumes := hs.resumes_le
    exact ⟨rfl, by simp only; omega⟩
  | case5 s err hstream hdone hmax e s' ho =>
    have hgets := hs.gets
    obtain ⟨-, hstate, -⟩ | ⟨b, -, hopen⟩ := s.broken.openStream_cases
    · rw [ho] at hstate
      simp only at hstate
      subst hstate
      refine ⟨rfl, ?_⟩
      simp only [broken]
      omega
    · rw [ho] at hopen
      cases hopen
  | case6 s err hstream hdone hmax s' ho ih =>
    obtain ⟨-, -, e, herror⟩ | ⟨b, hget, hopen⟩ := s.broken.openStream_cases
    · rw [ho] at herror
      cases herror
    · rw [ho] at hopen
      obtain rfl := (Prod.mk.inj hopen).2
      obtain ⟨hstore, hresult⟩ := ih (hs.resume (not_le.1 hmax) hget) hpending
      exact ⟨hstore, hresult⟩
  | case7 s hstream hshort =>
    have hgets := hs.gets
    have hresumes := hs.resumes_le
    exact ⟨rfl, by simp only; omega⟩
  | case8 s hstream hshort => exact ⟨rfl, hs.close (not_lt.1 hshort), hpending, not_lt.1 hshort⟩

/-! ### Reading -/

def left (s : ObjectSource) : ℕ := (s.stream.map fun b => b.pieces.length).getD 0

theorem nextChunk_decreases {s s' : ObjectSource} {b : Bytes}
    (h : s.nextChunk = (.ok (some b), s')) :
    s.resumes < s'.resumes ∧ s'.resumes ≤ maxResumes
      ∨ s.resumes = s'.resumes ∧ s'.left < s.left := by
  fun_induction nextChunk s with
  | case1 => cases h
  | case2 s piece pieces ending hstream =>
    obtain ⟨-, rfl⟩ := Prod.mk.inj h
    exact .inr ⟨rfl, by simp [left, hstream]⟩
  | case3 => cases h
  | case4 => cases h
  | case5 => cases h
  | case6 s err hstream hdone hmax t ho ih =>
    have hresumes := congrArg (fun r => r.2.resumes) ho
    simp only [openStream_resumes, broken] at hresumes
    obtain h | h := ih h
    · exact .inl (by omega)
    · exact .inl (by omega)
  | case7 => cases h
  | case8 => cases h

/-- Pull chunks until one has bytes. `false` is the end of the object. -/
def fillPending (s : ObjectSource) : Except String Bool × ObjectSource :=
  if s.pending ≠ [] then (.ok true, s)
  else
    match _h : s.nextChunk with
    | (.error e, s) => (.error e, s)
    | (.ok none, s) => (.ok false, s)
    | (.ok (some bytes), s) => fillPending { s with pending := bytes }
termination_by (maxResumes - s.resumes, s.left)
decreasing_by
  rcases nextChunk_decreases _h with hmore | ⟨hsame, hless⟩
  · exact Prod.Lex.left _ _ (by omega)
  · exact Prod.lex_iff.2 (.inr ⟨by omega, hless⟩)

def read (s : ObjectSource) (len : ℕ) : Except String Bytes × ObjectSource :=
  if len = 0 then (.ok [], s)
  else
    match s.fillPending with
    | (.error e, s) => (.error e, s)
    | (.ok false, s) => (.ok [], s)
    | (.ok true, s) => (.ok (s.pending.take len), { s with pending := s.pending.drop len })

/-- Calls of `read` into buffers of these lengths, up to the first that fails or
reads nothing. -/
def reads : ObjectSource → List ℕ → List (Except String Bytes) × ObjectSource
  | s, [] => ([], s)
  | s, len :: lens =>
    match s.read len with
    | (.error e, s) => ([.error e], s)
    | (.ok [], s) => ([.ok []], s)
    | (.ok (b :: bytes), s) =>
      let (results, s) := reads s lens
      (.ok (b :: bytes) :: results, s)

/-- The bytes that the calls returned. -/
def received (results : List (Except String Bytes)) : Bytes :=
  results.flatMap fun r => (r.toOption).getD []

theorem fillPending_spec {s : ObjectSource} {out : Bytes} (hs : s.Holds out) :
    s.fillPending.2.store = s.store ∧
      match s.fillPending.1 with
      | .ok true => s.fillPending.2.Holds out ∧ s.fillPending.2.pending ≠ []
      | .ok false => out = s.store.object ∧ s.fillPending.2.gets ≤ maxResumes + 1
      | .error _ => s.fillPending.2.gets ≤ maxResumes + 1 := by
  fun_induction fillPending s with
  | case1 s hpending => exact ⟨rfl, hs, hpending⟩
  | case2 s hpending e s' h =>
    have hspec := nextChunk_spec hs (not_not.1 hpending)
    rw [h] at hspec
    exact hspec
  | case3 s hpending s' h =>
    have hspec := nextChunk_spec hs (not_not.1 hpending)
    rw [h] at hspec
    obtain ⟨hstore, hholds, hnone, hdone⟩ := hspec
    have hgiven := hholds.given
    have hgets : s'.gets = s'.resumes + 1 := hholds.gets
    have hresumes : s'.resumes ≤ maxResumes := hholds.resumes_le
    have hall : s'.store.object.length ≤ s'.delivered := hholds.total ▸ hdone
    rw [hnone, List.append_nil, List.take_of_length_le hall, hstore] at hgiven
    exact ⟨hstore, hgiven, by simp only; omega⟩
  | case4 s hpending bytes s' h ih =>
    have hspec := nextChunk_spec hs (not_not.1 hpending)
    rw [h] at hspec
    obtain ⟨hstore, hholds⟩ := hspec
    obtain ⟨hstore', hresult⟩ := ih hholds
    refine ⟨hstore'.trans hstore, ?_⟩
    split at hresult
    next => exact hresult
    next => exact ⟨hresult.1.trans (congrArg ObjectStore.object hstore), hresult.2⟩
    next => exact hresult

theorem exists_take_cons {bytes : Bytes} (hbytes : bytes ≠ []) {len : ℕ} (hlen : 0 < len) :
    ∃ b rest, bytes.take len = b :: rest := by
  obtain ⟨b, rest, rfl⟩ := List.exists_cons_of_ne_nil hbytes
  obtain ⟨len, rfl⟩ : ∃ k, len = k + 1 := ⟨len - 1, by omega⟩
  exact ⟨b, rest.take len, List.take_succ_cons⟩

theorem read_spec {s : ObjectSource} {out : Bytes} (hs : s.Holds out) {len : ℕ} (hlen : 0 < len) :
    (s.read len).2.store = s.store ∧
      match (s.read len).1 with
      | .ok [] => out = s.store.object ∧ (s.read len).2.gets ≤ maxResumes + 1
      | .ok bytes => (s.read len).2.Holds (out ++ bytes)
      | .error _ => (s.read len).2.gets ≤ maxResumes + 1 := by
  have hspec := fillPending_spec hs
  unfold read
  rw [if_neg (by omega)]
  split
  next e s' h =>
    rw [h] at hspec
    exact hspec
  next s' h =>
    rw [h] at hspec
    exact hspec
  next s' h =>
    rw [h] at hspec
    obtain ⟨hstore, hholds, hpending⟩ := hspec
    have hgiven : out ++ s'.pending = s'.store.object.take s'.delivered := hholds.given
    obtain ⟨b, bytes, htake⟩ := exists_take_cons hpending hlen
    refine ⟨hstore, ?_⟩
    simp only [htake]
    refine ⟨?_, hholds.delivered_le, hholds.total, hholds.stream, hholds.finished,
      hholds.resumes_le, hholds.gets⟩
    rw [← htake]
    simpa [List.append_assoc] using hgiven

theorem Holds.out_prefix {s : ObjectSource} {out : Bytes} (hs : s.Holds out) :
    out <+: s.store.object :=
  ⟨s.pending ++ s.store.object.drop s.delivered, by
    rw [← List.append_assoc, hs.given, List.take_append_drop]⟩

/-- What the calls return, one after another, is what the object has next. -/
theorem reads_spec {s : ObjectSource} {out : Bytes} (hs : s.Holds out) {lens : List ℕ}
    (hlens : ∀ len ∈ lens, 0 < len) :
    out ++ received (s.reads lens).1 <+: s.store.object
      ∧ (.ok [] ∈ (s.reads lens).1 → out ++ received (s.reads lens).1 = s.store.object)
      ∧ (s.reads lens).2.gets ≤ maxResumes + 1 := by
  induction lens generalizing s out with
  | nil =>
    have hgets := hs.gets
    have hresumes := hs.resumes_le
    refine ⟨?_, fun h => (by cases h), ?_⟩
    · rw [reads, received, List.flatMap_nil, List.append_nil]
      exact hs.out_prefix
    · rw [reads]
      simp only
      omega
  | cons len lens ih =>
    obtain ⟨hstore, hresult⟩ := read_spec hs (hlens len List.mem_cons_self)
    have hprefix := hs.out_prefix
    unfold reads
    split
    next e s' h =>
      rw [h] at hresult
      refine ⟨?_, fun h => ?_, hresult⟩
      · simpa [received, Except.toOption] using hprefix
      · simp at h
    next s' h =>
      rw [h] at hresult
      have hnone : received [.ok []] = [] := rfl
      refine ⟨?_, fun _ => ?_, hresult.2⟩
      · rw [hnone, List.append_nil]
        exact hprefix
      · rw [hnone, List.append_nil]
        exact hresult.1
    next b bytes s' h =>
      rw [h] at hstore hresult
      obtain ⟨hrest, hwhole, hgets⟩ := ih hresult fun n hn => hlens n (List.mem_cons_of_mem _ hn)
      have hmore : received (.ok (b :: bytes) :: (s'.reads lens).1)
          = b :: bytes ++ received (s'.reads lens).1 := rfl
      rw [show s'.store = s.store from hstore] at hrest hwhole
      refine ⟨?_, fun h => ?_, hgets⟩
      · rw [hmore, ← List.append_assoc]
        exact hrest
      · rw [hmore, ← List.append_assoc]
        exact hwhole (by simpa using h)

theorem start_holds {store : ObjectStore} {uri : String} {s : ObjectSource}
    (h : start store store.object.length uri = (.ok (), s)) :
    s.Holds [] ∧ s.store = store := by
  obtain ⟨-, -, e, herror⟩ | ⟨b, hget, hopen⟩ := openStream_cases
    { store := store, uri := uri, total := store.object.length, delivered := 0, resumes := 0
      stream := none, pending := [], gets := 0 }
  · rw [start] at h
    rw [h] at herror
    cases herror
  · rw [start, hopen] at h
    obtain rfl := (Prod.mk.inj h).2
    refine ⟨⟨rfl, Nat.zero_le _, rfl, ?_, fun h => (by cases h), Nat.zero_le _, rfl⟩, rfl⟩
    intro b' hb'
    obtain rfl := Option.some.inj hb'
    exact store.get_prefix hget

/-! ### Delivery -/

def remaining (s : ObjectSource) : Bytes × Option Fault :=
  match s.stream with
  | none => (s.pending, none)
  | some stream =>
    let rest := s.store.follow (maxResumes - s.resumes) s.gets s.delivered stream
    (s.pending ++ rest.1, rest.2)

/-- A chunk is the first part of what remains. Without one nothing remains, and
`next_chunk` fails for the fault alone. -/
theorem nextChunk_remaining {s : ObjectSource} (htotal : s.total = s.store.object.length)
    (hpending : s.pending = []) :
    match s.nextChunk with
    | (.ok (some bytes), s') =>
      s'.total = s'.store.object.length ∧ s.remaining = { s' with pending := bytes }.remaining
    | (.ok none, _) => s.remaining = ([], none)
    | (.error _, _) => ∃ fault, s.remaining = ([], some fault) := by
  fun_induction nextChunk s with
  | case1 s hstream => simp only [remaining, hstream, hpending]
  | case2 s piece pieces ending hstream =>
    refine ⟨htotal, ?_⟩
    simp only [remaining, hstream, hpending, List.nil_append]
    exact s.store.follow_cons ..
  | case3 s err hstream hdone =>
    -- broken behind the last byte, which is no fault
    have hall : s.store.object.length ≤ s.delivered := htotal ▸ hdone
    simp [remaining, hstream, hpending, ObjectStore.follow.eq_def, hall]
  | case4 s err hstream hdone hmax =>
    -- with the resumes spent, `follow` has no budget left
    have hshort : ¬ s.store.object.length ≤ s.delivered := htotal ▸ hdone
    have hspent : maxResumes - s.resumes = 0 := by omega
    refine ⟨.exhausted, ?_⟩
    simp [remaining, hstream, hpending, hspent, ObjectStore.follow.eq_def, hshort]
  | case5 s err hstream hdone hmax e s' ho =>
    -- the GET that resumes is refused
    have hshort : ¬ s.store.object.length ≤ s.delivered := htotal ▸ hdone
    have hbudget : maxResumes - s.resumes = maxResumes - (s.resumes + 1) + 1 := by omega
    obtain ⟨⟨e', hget⟩, -⟩ | ⟨b, -, hopen⟩ := s.broken.openStream_cases
    · have hrefused : s.store.get s.gets s.delivered = .error e' := hget
      refine ⟨.refused, ?_⟩
      simp [remaining, hstream, hpending, hbudget, ObjectStore.follow.eq_def, hshort, hrefused]
    · rw [ho] at hopen
      cases hopen
  | case6 s err hstream hdone hmax s' ho ih =>
    have hshort : ¬ s.store.object.length ≤ s.delivered := htotal ▸ hdone
    have hbudget : maxResumes - s.resumes = maxResumes - (s.resumes + 1) + 1 := by omega
    obtain ⟨-, -, e, herror⟩ | ⟨b, hget, hopen⟩ := s.broken.openStream_cases
    · rw [ho] at herror
      cases herror
    · rw [ho] at hopen
      obtain rfl := (Prod.mk.inj hopen).2
      have hanswer : s.store.get s.gets s.delivered = .ok b := hget
      -- the broken stream has nothing left, so what remains is what the new one brings
      have hsame : s.remaining
          = { s.broken with stream := some b, gets := s.broken.gets + 1 }.remaining := by
        simp [remaining, hstream, hpending, hbudget, broken,
          ObjectStore.follow.eq_def _ (_ + 1), hshort, hanswer]
      rw [hsame]
      exact ih htotal hpending
  | case7 s hstream hshort =>
    have hmore : ¬ s.store.object.length ≤ s.delivered := by omega
    refine ⟨.truncated, ?_⟩
    simp [remaining, hstream, hpending, ObjectStore.follow.eq_def, hmore]
  | case8 s hstream hshort =>
    have hall : s.store.object.length ≤ s.delivered := by omega
    simp [remaining, hstream, hpending, ObjectStore.follow.eq_def, hall]

theorem fillPending_remaining {s : ObjectSource} (htotal : s.total = s.store.object.length) :
    match s.fillPending with
    | (.ok true, s') =>
      s'.total = s'.store.object.length ∧ s'.pending ≠ [] ∧ s.remaining = s'.remaining
    | (.ok false, _) => s.remaining = ([], none)
    | (.error _, _) => ∃ fault, s.remaining = ([], some fault) := by
  fun_induction fillPending s with
  | case1 s hpending => exact ⟨htotal, hpending, rfl⟩
  | case2 s hpending e s' h =>
    have hspec := nextChunk_remaining htotal (not_not.1 hpending)
    rw [h] at hspec
    exact hspec
  | case3 s hpending s' h =>
    have hspec := nextChunk_remaining htotal (not_not.1 hpending)
    rw [h] at hspec
    exact hspec
  | case4 s hpending bytes s' h ih =>
    have hspec := nextChunk_remaining htotal (not_not.1 hpending)
    rw [h] at hspec
    obtain ⟨htotal', hsame⟩ := hspec
    rw [hsame]
    exact ih htotal'

/-- What a call returns is the first part of what remains, and fits its buffer. -/
theorem read_remaining {s : ObjectSource} (htotal : s.total = s.store.object.length) {len : ℕ}
    (hlen : 0 < len) :
    match s.read len with
    | (.ok [], _) => s.remaining = ([], none)
    | (.ok bytes, s') =>
      bytes.length ≤ len ∧ s'.total = s'.store.object.length ∧
        s.remaining = (bytes ++ s'.remaining.1, s'.remaining.2)
    | (.error _, _) => ∃ fault, s.remaining = ([], some fault) := by
  have hspec := fillPending_remaining htotal
  rw [read, if_neg (by omega)]
  rcases hfill : s.fillPending with ⟨e | found, s'⟩
  · rw [hfill] at hspec
    exact hspec
  rw [hfill] at hspec
  cases found with
  | false => exact hspec
  | true =>
    obtain ⟨htotal', hpending, hsame⟩ := hspec
    obtain ⟨b, bytes, htake⟩ := exists_take_cons hpending hlen
    have hsplit : s'.pending = b :: bytes ++ s'.pending.drop len := by
      rw [← htake, List.take_append_drop]
    simp only [htake]
    refine ⟨?_, htotal', ?_⟩
    · rw [← htake]
      exact List.length_take_le _ _
    · rw [hsame]
      unfold remaining
      cases s'.stream with
      | none => exact congrArg (·, none) hsplit
      | some stream =>
        refine congrArg (·, _) ?_
        conv_lhs => rw [hsplit]
        exact List.append_assoc ..

/-- What calls of `read` into buffers of these lengths come to, when `supply` is
what there is to return and the fault behind it. -/
structure Delivers (supply : Bytes × Option Fault) (lens : List ℕ)
    (results : List (Except String Bytes)) : Prop where
  returned : received results <+: supply.1
  fits : ∀ call ∈ results.zip lens, ∀ bytes, call.1 = .ok bytes → bytes.length ≤ call.2
  whole : .ok [] ∈ results → supply = (received results, none)
  failed : ∀ e, .error e ∈ results → ∃ fault, supply = (received results, some fault)
  closed : supply.1.length < lens.length → .ok [] ∈ results ∨ ∃ e, .error e ∈ results

/-- A call that returns bytes, in front of other calls. -/
theorem Delivers.cons {supply rest : Bytes × Option Fault} {lens : List ℕ}
    {results : List (Except String Bytes)} (h : Delivers rest lens results) {len : ℕ} {b : UInt8}
    {bytes : Bytes} (hfits : (b :: bytes).length ≤ len)
    (hsupply : supply = (b :: bytes ++ rest.1, rest.2)) :
    Delivers supply (len :: lens) (.ok (b :: bytes) :: results) := by
  subst hsupply
  have hmore : received (.ok (b :: bytes) :: results) = b :: bytes ++ received results := rfl
  refine ⟨?_, ?_, fun hnone => ?_, fun e he => ?_, fun hlong => ?_⟩
  · rw [hmore]
    exact (List.prefix_append_right_inj _).2 h.returned
  · intro call hcall
    rw [List.zip_cons_cons, List.mem_cons] at hcall
    obtain rfl | hcall := hcall
    · intro bytes' hbytes
      rw [← Except.ok.inj hbytes]
      exact hfits
    · exact h.fits call hcall
  · have hwhole := h.whole (by simpa using hnone)
    rw [hmore, hwhole]
  · obtain ⟨fault, hfault⟩ := h.failed e (by simpa using he)
    exact ⟨fault, by rw [hmore, hfault]⟩
  · simp only [List.length_append, List.length_cons] at hlong
    obtain hnone | ⟨e, he⟩ := h.closed (by omega)
    · exact .inl (List.mem_cons_of_mem _ hnone)
    · exact .inr ⟨e, List.mem_cons_of_mem _ he⟩

/-- The calls return what remains, byte for byte and to its end. -/
theorem reads_deliver {s : ObjectSource} (htotal : s.total = s.store.object.length)
    {lens : List ℕ} (hlens : ∀ len ∈ lens, 0 < len) :
    Delivers s.remaining lens (s.reads lens).1 := by
  induction lens generalizing s with
  | nil =>
    rw [reads]
    exact ⟨List.nil_prefix, by simp, by simp, by simp, by simp⟩
  | cons len lens ih =>
    have hspec := read_remaining htotal (hlens len List.mem_cons_self)
    unfold reads
    split
    next e s' h =>
      rw [h] at hspec
      obtain ⟨fault, hfault⟩ := hspec
      have hnone : received [.error e] = [] := rfl
      refine ⟨by rw [hnone]; exact List.nil_prefix, by simp, by simp, fun _ _ => ?_, fun _ => ?_⟩
      · exact ⟨fault, by rw [hnone, hfault]⟩
      · exact .inr ⟨e, List.mem_cons_self⟩
    next s' h =>
      rw [h] at hspec
      have hnone : received [.ok []] = [] := rfl
      refine ⟨by rw [hnone]; exact List.nil_prefix, by simp, fun _ => ?_, by simp, fun _ => ?_⟩
      · rw [hnone]
        exact hspec
      · exact .inl List.mem_cons_self
    next b bytes s' h =>
      rw [h] at hspec
      obtain ⟨hfits, htotal', hsupply⟩ := hspec
      exact (ih htotal' fun n hn => hlens n (List.mem_cons_of_mem _ hn)).cons hfits hsupply

theorem start_remaining {store : ObjectStore} {uri : String} {s : ObjectSource}
    (h : start store store.object.length uri = (.ok (), s)) : s.remaining = store.download := by
  obtain ⟨-, -, e, herror⟩ | ⟨b, hget, hopen⟩ := openStream_cases
    { store := store, uri := uri, total := store.object.length, delivered := 0, resumes := 0
      stream := none, pending := [], gets := 0 }
  · rw [start] at h
    rw [h] at herror
    cases herror
  · rw [start, hopen] at h
    obtain rfl := (Prod.mk.inj h).2
    have hfirst : store.get 0 0 = .ok b := hget
    rw [ObjectStore.download, hfirst]
    rfl

/-! ### The end of a stream -/

/-- Nothing is left of a stream but its end. -/
def AtEnd (s : ObjectSource) (ending : StreamEnd) : Prop :=
  s.pending = [] ∧ s.stream = some ⟨[], ending⟩

theorem read_of_error {s s' : ObjectSource} {e : String} (hpending : s.pending = [])
    (h : s.nextChunk = (.error e, s')) {len : ℕ} (hlen : 0 < len) :
    s.read len = (.error e, s') := by
  have hfill : s.fillPending = (.error e, s') := by
    rw [fillPending, if_neg (not_not.2 hpending)]
    split
    next e' t h' =>
      rw [h] at h'
      obtain ⟨he, ht⟩ := Prod.mk.inj h'
      rw [Except.error.inj he, ht]
    next t h' =>
      rw [h] at h'
      cases h'
    next bytes t h' =>
      rw [h] at h'
      cases h'
  rw [read, if_neg (by omega), hfill]

theorem read_of_none {s s' : ObjectSource} (hpending : s.pending = [])
    (h : s.nextChunk = (.ok none, s')) {len : ℕ} (hlen : 0 < len) :
    s.read len = (.ok [], s') := by
  have hfill : s.fillPending = (.ok false, s') := by
    rw [fillPending, if_neg (not_not.2 hpending)]
    split
    next e' t h' =>
      rw [h] at h'
      cases h'
    next t h' =>
      rw [h] at h'
      rw [(Prod.mk.inj h').2]
    next bytes t h' =>
      rw [h] at h'
      cases h'
  rw [read, if_neg (by omega), hfill]

theorem read_truncated {s : ObjectSource} (hend : s.AtEnd .ended)
    (hshort : s.delivered < s.total) {len : ℕ} (hlen : 0 < len) :
    ∃ e, (s.read len).1 = .error e := by
  obtain ⟨hpending, hstream⟩ := hend
  have hchunk : ∃ e s', s.nextChunk = (.error e, s') := by
    unfold nextChunk
    simp only [hstream, if_pos hshort]
    exact ⟨_, _, rfl⟩
  obtain ⟨e, s', hchunk⟩ := hchunk
  exact ⟨e, by rw [read_of_error hpending hchunk hlen]⟩

/-- However the stream ends, behind the last byte of the object there is no
error. -/
theorem read_complete {s : ObjectSource} {ending : StreamEnd} (hend : s.AtEnd ending)
    (hdone : s.total ≤ s.delivered) {len : ℕ} (hlen : 0 < len) : (s.read len).1 = .ok [] := by
  obtain ⟨hpending, hstream⟩ := hend
  have hchunk : ∃ s', s.nextChunk = (.ok none, s') := by
    unfold nextChunk
    cases ending with
    | ended =>
      simp only [hstream, if_neg (not_lt.2 hdone)]
      exact ⟨_, rfl⟩
    | failed err =>
      simp only [hstream, if_pos hdone]
      exact ⟨_, rfl⟩
  obtain ⟨s', hchunk⟩ := hchunk
  rw [read_of_none hpending hchunk hlen]

/-- A download, resumed as it may be, returns the object from its start, ends
only behind its last byte, never takes a clean end before it for the end of the
object, and asks for a broken stream eight times at most. It returns all that the
store delivers, and fails only for a refused GET, an early end or a stream that
breaks with no resume left. -/
theorem resumed_download (store : ObjectStore) (uri : String) {source : ObjectSource}
    (hstart : start store store.object.length uri = (.ok (), source)) {lens : List ℕ}
    (hlens : ∀ len ∈ lens, 0 < len) :
    received (source.reads lens).1 <+: store.object
      ∧ (.ok [] ∈ (source.reads lens).1 → received (source.reads lens).1 = store.object)
      ∧ (source.reads lens).2.gets ≤ 1 + 8
      ∧ (∀ {len}, 0 < len →
          ((source.reads lens).2.AtEnd .ended →
            (source.reads lens).2.delivered < (source.reads lens).2.total →
              ∃ e, ((source.reads lens).2.read len).1 = .error e)
          ∧ ∀ {ending}, (source.reads lens).2.AtEnd ending →
              (source.reads lens).2.total ≤ (source.reads lens).2.delivered →
                ((source.reads lens).2.read len).1 = .ok [])
      ∧ Delivers store.download lens (source.reads lens).1 := by
  obtain ⟨hholds, hstore⟩ := start_holds hstart
  obtain ⟨hout, hwhole, hgets⟩ := reads_spec hholds hlens
  rw [List.nil_append, hstore] at hout
  rw [List.nil_append, hstore] at hwhole
  have hdelivers := reads_deliver hholds.total hlens
  rw [start_remaining hstart] at hdelivers
  refine ⟨hout, hwhole, by simpa [maxResumes, Nat.add_comm] using hgets, fun hlen => ⟨?_, ?_⟩,
    hdelivers⟩
  · exact fun hend hshort => read_truncated hend hshort hlen
  · exact fun hend hdone => read_complete hend hdone hlen

/-- A store whose first answer breaks after a byte. -/
def flakyStore (object : Bytes) : ObjectStore where
  object := object
  get n offset :=
    if n = 0 then .ok ⟨[(object.drop offset).take 1], .failed "connection reset"⟩
    else .ok ⟨[object.drop offset], .ended⟩
  get_prefix := by
    intro n offset stream h
    split at h
    · obtain rfl := Except.ok.inj h
      simpa using List.take_prefix _ _
    · obtain rfl := Except.ok.inj h
      simp

/-- Five calls are enough for its four bytes, and all of them arrive. -/
theorem resumed_download_flaky :
    let results := ((start (flakyStore (ascii "dump")) 4 "s3://bucket/day.sql").2.reads
      [3, 3, 3, 3, 3]).1
    received results = ascii "dump" ∧ (.ok [] ∈ results) := by
  obtain ⟨-, hwhole, -, -, hdelivers⟩ :=
    resumed_download (flakyStore (ascii "dump")) "s3://bucket/day.sql" rfl
      (by decide : ∀ len ∈ [3, 3, 3, 3, 3], 0 < len)
  have hfault : (flakyStore (ascii "dump")).download.2 = none := by decide
  obtain hnone | ⟨e, he⟩ := hdelivers.closed (by decide)
  · exact ⟨hwhole hnone, hnone⟩
  · obtain ⟨fault, hfailed⟩ := hdelivers.failed e he
    rw [hfailed] at hfault
    cases hfault

end ObjectSource

end PgDelta.Dump
