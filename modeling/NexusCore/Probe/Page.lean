import NexusCore.Foundation.Decimal
import NexusCore.Foundation.Double
import NexusCore.Foundation.Transition
import NexusCore.Probe.Web

/-!
# The page and the server

The page asks `/api/metrics` every two seconds and at the push of a button, so several requests
may be under way at a time, and the responses may come in any order or not at all.  The handler
takes three locks one after another, and in between others may ingest.  So a response may be
older than the one before it, and its two parts may be of different times.

A `Site` is the server, the requests under way and the page, and `Site.step` whatever may happen
next.  `Site.history` keeps what was ingested, and `Site.Sound` says that everything else is of
some time of that history.  The page has it as `JSON.parse` reads it, with every number in double
precision.

* `page_shows_held`: the page shows nothing but what the server once held, in its order;
* `page_fresh`: a response is not older than its request, and settles the page when nothing was
  ingested since.
-/

namespace NexusCore.Probe.Dashboard

open Foundation Foundation.Decimal Foundation.KeyedTable Foundation.Transition

/-- `F` stands for `f64`: nothing here computes with these numbers. -/
structure LoadClientMetrics (F : Type) where
  elapsedSecs : F
  targetRps : UInt64
  actualRps : F
  totalRequests : UInt64
  errors : UInt64
  p50Us : UInt64
  p99Us : UInt64
  p999Us : UInt64
  maxUs : UInt64

structure MetricsPayload (F : Type) where
  updatedRfc3339 : String
  surrealdbReachable : Bool
  histograms : List HistogramReport
  loadClient : Option (LoadClientMetrics F)

/-- What the locks guard. -/
structure AppState (F : Type) where
  histograms : List HistogramReport
  loadClient : Option (LoadClientMetrics F)
  surrealReachable : Bool

/-- How far `api_metrics` is with a request. -/
inductive Poll (F : Type)
  | begun
  | sawHistograms (histograms : List HistogramReport)
  | sawLoad (histograms : List HistogramReport) (loadClient : Option (LoadClientMetrics F))
  | answered (payload : MetricsPayload F)

/-! ### What the page reads -/

/-- A count as `JSON.parse` reads it: the double next to it. -/
def parseNumber (n : UInt64) : ℚ := Rounding.double.round n.toNat

/-- Small counts are read as they are. -/
theorem parseNumber_eq {n : UInt64} (hn : n.toNat ≤ 2 ^ 53) : parseNumber n = n.toNat :=
  Rounding.double.exact _ hn

example : parseNumber 9007199254740993 = 9007199254740992 := by decide +kernel

structure ParsedReport where
  ts : String
  stack : String
  op : String
  p50Ns : ℚ
  p99Ns : ℚ
  p999Ns : ℚ
  totalCount : ℚ
  buckets : String → Option ℚ

structure ParsedLoad (F : Type) where
  elapsedSecs : F
  targetRps : ℚ
  actualRps : F
  totalRequests : ℚ
  errors : ℚ
  p50Us : ℚ
  p99Us : ℚ
  p999Us : ℚ
  maxUs : ℚ

structure ParsedPayload (F : Type) where
  updatedRfc3339 : String
  surrealdbReachable : Bool
  histograms : List ParsedReport
  loadClient : Option (ParsedLoad F)

def HistogramReport.parse (h : HistogramReport) : ParsedReport where
  ts := h.ts
  stack := h.stack
  op := h.op
  p50Ns := parseNumber h.p50Ns
  p99Ns := parseNumber h.p99Ns
  p999Ns := parseNumber h.p999Ns
  totalCount := parseNumber h.totalCount
  buckets := fun key => (h.buckets key).map parseNumber

/-- A double is read as it is. -/
def LoadClientMetrics.parse {F : Type} (m : LoadClientMetrics F) : ParsedLoad F where
  elapsedSecs := m.elapsedSecs
  targetRps := parseNumber m.targetRps
  actualRps := m.actualRps
  totalRequests := parseNumber m.totalRequests
  errors := parseNumber m.errors
  p50Us := parseNumber m.p50Us
  p99Us := parseNumber m.p99Us
  p999Us := parseNumber m.p999Us
  maxUs := parseNumber m.maxUs

/-- `res.json()`. -/
def MetricsPayload.parse {F : Type} (j : MetricsPayload F) : ParsedPayload F where
  updatedRfc3339 := j.updatedRfc3339
  surrealdbReachable := j.surrealdbReachable
  histograms := j.histograms.map HistogramReport.parse
  loadClient := j.loadClient.map LoadClientMetrics.parse

/-! ### The page -/

/-- The element of one chart.  Its title, its labels and its bars are made of the report. -/
structure Card where
  id : String
  report : ParsedReport

/-- `load` is `none` until there is a response. -/
structure Page (F : Type) where
  updated : String
  surreal : String
  load : Option (Option (ParsedLoad F))
  cards : List Card

def Page.init (F : Type) : Page F := ⟨"—", "—", none, []⟩

def ensureChart (cards : List Card) (card : Card) : List Card :=
  match cards.findIdx? fun c => c.id == card.id with
  | some i => cards.set i card
  | none => cards ++ [card]

/-- The cards of a list of reports. -/
def cardsOf (list : List ParsedReport) : List Card :=
  list.mapIdx fun i h => ⟨h.stack ++ "-" ++ h.op ++ "-" ++ toString i, h⟩

/-- What `tick` does with a response. -/
def Page.tick {F : Type} (page : Page F) (j : ParsedPayload F) : Page F where
  updated := if j.updatedRfc3339 = "" then "—" else j.updatedRfc3339
  surreal := if j.surrealdbReachable then "reachable" else "unreachable"
  load := some j.loadClient
  cards := (cardsOf j.histograms).foldl ensureChart page.cards

/-! ### The site -/

inductive Ingest (F : Type)
  | histogram (report : HistogramReport)
  | load (body : LoadClientMetrics F)

def Ingest.report? {F : Type} : Ingest F → Option HistogramReport
  | .histogram report => some report
  | .load _ => none

def Ingest.body? {F : Type} : Ingest F → Option (LoadClientMetrics F)
  | .histogram _ => none
  | .load body => some body

/-- A request under way has a name `q`; `since` is how much was ingested when it began. -/
structure Site (F : Type) where
  server : AppState F
  polls : ℕ → Option (ℕ × Poll F)
  page : Page F
  history : List (Ingest F)

/-- `now` is the time at which the server starts. -/
def Site.init (F : Type) (now : String) : Site F where
  server := ⟨lessonDefaultHistograms now, none, false⟩
  polls := fun _ => none
  page := Page.init F
  history := []

inductive SiteEvent (F : Type)
  /-- the background task has tried to connect -/
  | probe (ok : Bool)
  | ingestLoad (body : LoadClientMetrics F)
  | ingestHistogram (report : HistogramReport)
  /-- the page sends a request -/
  | tick (q : ℕ)
  /-- the first lock of the handler -/
  | readHistograms (q : ℕ)
  /-- the second lock -/
  | readLoad (q : ℕ)
  /-- the third lock, and the answer -/
  | answer (q : ℕ) (now : String)
  /-- the page gets the answer -/
  | deliver (q : ℕ)
  /-- the request or its answer is lost -/
  | fail (q : ℕ)

variable {F : Type}

/-- What the server does with an ingested value. -/
def AppState.ingest (server : AppState F) : Ingest F → AppState F
  | .histogram report => { server with histograms := ingestHistogram server.histograms report }
  | .load body => { server with loadClient := some body }

def Site.ingest (s : Site F) (i : Ingest F) : Site F :=
  { s with server := s.server.ingest i, history := s.history ++ [i] }

def Site.setPoll (s : Site F) (q : ℕ) (poll : Option (ℕ × Poll F)) : Site F :=
  { s with polls := Function.update s.polls q poll }

def Site.step (s : Site F) : SiteEvent F → Option (Site F)
  | .probe ok => some { s with server := { s.server with surrealReachable := ok } }
  | .ingestLoad body => some (s.ingest (.load body))
  | .ingestHistogram report => some (s.ingest (.histogram report))
  | .tick q =>
      match s.polls q with
      | none => some (s.setPoll q (some (s.history.length, .begun)))
      | some _ => none
  | .readHistograms q =>
      match s.polls q with
      | some (since, .begun) =>
          some (s.setPoll q (some (since, .sawHistograms s.server.histograms)))
      | _ => none
  | .readLoad q =>
      match s.polls q with
      | some (since, .sawHistograms histograms) =>
          some (s.setPoll q (some (since, .sawLoad histograms s.server.loadClient)))
      | _ => none
  | .answer q now =>
      match s.polls q with
      | some (since, .sawLoad histograms loadClient) =>
          some (s.setPoll q
            (some (since, .answered ⟨now, s.server.surrealReachable, histograms, loadClient⟩)))
      | _ => none
  | .deliver q =>
      match s.polls q with
      | some (_, .answered payload) =>
          some { s.setPoll q none with page := s.page.tick payload.parse }
      | _ => none
  | .fail q =>
      match s.polls q with
      | some _ => some (s.setPoll q none)
      | none => none

/-! ### The cards of a list -/

/-- **An id tells its place**: the number after the last dash. -/
theorem chartId_place {i j : ℕ} {a b : HistogramReport} (h : chartId i a = chartId j b) :
    i = j := by
  have hlist : ∀ (n : ℕ) (r : HistogramReport), (chartId n r).toList
      = (r.stack ++ "-" ++ r.op).toList ++ '-' :: Nat.toDigits 10 n := by
    intro n r
    simp [chartId, toString, Nat.repr]
  have heq := congrArg String.toList h
  rw [hlist, hlist] at heq
  exact append_toDigits_inj (by decide) (by decide) heq

/-- The cards of a list of the server. -/
def shownCards (list : List HistogramReport) : List Card :=
  cardsOf (list.map HistogramReport.parse)

theorem getElem?_shownCards (list : List HistogramReport) (i : ℕ) :
    (shownCards list)[i]? = list[i]?.map fun h => ⟨chartId i h, h.parse⟩ := by
  rw [shownCards, cardsOf, List.getElem?_mapIdx, List.getElem?_map, Option.map_map]
  rfl

theorem length_shownCards (list : List HistogramReport) :
    (shownCards list).length = list.length := by
  rw [shownCards, cardsOf, List.length_mapIdx, List.length_map]

theorem ids_shownCards (list : List HistogramReport) :
    (shownCards list).map Card.id = chartIds list := by
  apply List.ext_getElem?
  intro i
  rw [List.getElem?_map, getElem?_shownCards, chartIds, List.getElem?_mapIdx, Option.map_map]
  rfl

theorem distinct_shownCards (list : List HistogramReport) :
    Distinct Card.id (shownCards list) := by
  rw [Distinct, ids_shownCards, List.nodup_iff_getElem?_ne_getElem?]
  intro i j hij hj heq
  rw [chartIds, List.getElem?_mapIdx, List.getElem?_mapIdx] at heq
  have hj' : j < list.length := by rwa [chartIds, List.length_mapIdx] at hj
  rw [List.getElem?_eq_getElem hj', List.getElem?_eq_getElem (Nat.lt_trans hij hj')] at heq
  exact Nat.ne_of_lt hij (chartId_place (Option.some.inj heq))

theorem ensureChart_eq_upsert : ensureChart = upsert Card.id := by
  funext cards card
  have hsame : (fun c : Card => c.id == card.id) = fun c => decide (c.id = card.id) := rfl
  rw [ensureChart, hsame]
  rfl

/-- **A response overwrites the first cards**, if the ids it has are those of the cards. -/
theorem tick_cards {page : Page F} {j : MetricsPayload F}
    (hsame : ∀ (i : ℕ) a b, (shownCards j.histograms)[i]? = some a → page.cards[i]? = some b →
      a.id = b.id) :
    (page.tick j.parse).cards
      = shownCards j.histograms ++ page.cards.drop j.histograms.length := by
  show (shownCards j.histograms).foldl ensureChart page.cards = _
  rw [ensureChart_eq_upsert, ← length_shownCards]
  exact replay_eq_overwrite (distinct_shownCards _) hsame

/-! ### What was ingested -/

/-- The list of the server after `history`. -/
def histogramsAfter (now : String) (history : List (Ingest F)) : List HistogramReport :=
  ingestAll (lessonDefaultHistograms now) (history.filterMap Ingest.report?)

def loadAfter (history : List (Ingest F)) : Option (LoadClientMetrics F) :=
  (history.filterMap Ingest.body?).getLast?

/-- The list after the first `k` values. -/
def histogramsAt (now : String) (history : List (Ingest F)) (k : ℕ) : List HistogramReport :=
  histogramsAfter now (history.take k)

variable {now : String} {history : List (Ingest F)} {k : ℕ}

theorem histogramsAt_append (i : Ingest F) (hk : k ≤ history.length) :
    histogramsAt now (history ++ [i]) k = histogramsAt now history k := by
  rw [histogramsAt, List.take_append_of_le_length hk, histogramsAt]

/-- **The ids of an earlier list are the first ones of a later list.** -/
theorem chartIds_histogramsAt (now : String) (history : List (Ingest F)) (k : ℕ) :
    chartIds (histogramsAt now history k) <+: chartIds (histogramsAfter now history) := by
  have hsplit : history.filterMap Ingest.report?
      = (history.take k).filterMap Ingest.report? ++ (history.drop k).filterMap Ingest.report? := by
    rw [← List.filterMap_append, List.take_append_drop]
  rw [histogramsAt, histogramsAfter, histogramsAfter, hsplit]
  exact chartIds_isPrefix _ _ _

/-! ### What a step does -/

/-- A request takes its next lock, or is answered. -/
inductive Advances (server : AppState F) : Poll F → Poll F → Prop
  | histograms : Advances server .begun (.sawHistograms server.histograms)
  | load (l : List HistogramReport) :
      Advances server (.sawHistograms l) (.sawLoad l server.loadClient)
  | answer (l : List HistogramReport) (m : Option (LoadClientMetrics F)) (now : String) :
      Advances server (.sawLoad l m) (.answered ⟨now, server.surrealReachable, l, m⟩)

variable {s s' : Site F} {e : SiteEvent F} {q : ℕ}

theorem step_tick (h : s.step (.tick q) = some s') :
    s.polls q = none ∧ s' = s.setPoll q (some (s.history.length, .begun)) := by
  rw [Site.step] at h
  split at h
  · next hpoll => exact ⟨hpoll, (Option.some.inj h).symm⟩
  · cases h

theorem step_deliver (h : s.step (.deliver q) = some s') :
    ∃ since payload, s.polls q = some (since, .answered payload) ∧
      s' = { s.setPoll q none with page := s.page.tick payload.parse } := by
  rw [Site.step] at h
  split at h
  · next since payload hpoll => exact ⟨since, payload, hpoll, (Option.some.inj h).symm⟩
  · cases h

theorem step_fail (h : s.step (.fail q) = some s') : s' = s.setPoll q none := by
  rw [Site.step] at h
  split at h
  · exact (Option.some.inj h).symm
  · cases h

/-- The steps of the handler. -/
theorem step_advance (he : e = .readHistograms q ∨ e = .readLoad q ∨ ∃ now, e = .answer q now)
    (h : s.step e = some s') : ∃ since poll poll', s.polls q = some (since, poll) ∧
      Advances s.server poll poll' ∧ s' = s.setPoll q (some (since, poll')) := by
  obtain rfl | rfl | ⟨now, rfl⟩ := he
  · rw [Site.step] at h
    split at h
    · next since hpoll => exact ⟨since, _, _, hpoll, .histograms, (Option.some.inj h).symm⟩
    · cases h
  · rw [Site.step] at h
    split at h
    · next since l hpoll => exact ⟨since, _, _, hpoll, .load l, (Option.some.inj h).symm⟩
    · cases h
  · rw [Site.step] at h
    split at h
    · next since l m hpoll => exact ⟨since, _, _, hpoll, .answer l m now, (Option.some.inj h).symm⟩
    · cases h

/-- **What a step does**: the server changes, or one request begins, goes on, is answered or is
lost. -/
theorem step_cases (h : s.step e = some s') :
    (∃ ok, s' = { s with server := { s.server with surrealReachable := ok } }) ∨
    (∃ i, s' = s.ingest i) ∨
    (∃ q, s.polls q = none ∧ s' = s.setPoll q (some (s.history.length, .begun))) ∨
    (∃ q since poll poll', s.polls q = some (since, poll) ∧ Advances s.server poll poll' ∧
      s' = s.setPoll q (some (since, poll'))) ∨
    (∃ q since payload, s.polls q = some (since, .answered payload) ∧
      s' = { s.setPoll q none with page := s.page.tick payload.parse }) ∨
    ∃ q, s' = s.setPoll q none := by
  have hadvance : ∀ q, (e = .readHistograms q ∨ e = .readLoad q ∨ ∃ now, e = .answer q now) →
      ∃ q since poll poll', s.polls q = some (since, poll) ∧ Advances s.server poll poll' ∧
        s' = s.setPoll q (some (since, poll')) :=
    fun q he => ⟨q, step_advance he h⟩
  cases e with
  | probe ok => exact Or.inl ⟨ok, (Option.some.inj h).symm⟩
  | ingestLoad body => exact Or.inr (Or.inl ⟨_, (Option.some.inj h).symm⟩)
  | ingestHistogram report => exact Or.inr (Or.inl ⟨_, (Option.some.inj h).symm⟩)
  | tick q => exact Or.inr (Or.inr (Or.inl ⟨q, step_tick h⟩))
  | readHistograms q => exact Or.inr (Or.inr (Or.inr (Or.inl (hadvance q (Or.inl rfl)))))
  | readLoad q => exact Or.inr (Or.inr (Or.inr (Or.inl (hadvance q (Or.inr (Or.inl rfl))))))
  | answer q now =>
      exact Or.inr (Or.inr (Or.inr (Or.inl (hadvance q (Or.inr (Or.inr ⟨now, rfl⟩))))))
  | deliver q => exact Or.inr (Or.inr (Or.inr (Or.inr (Or.inl ⟨q, step_deliver h⟩))))
  | fail q => exact Or.inr (Or.inr (Or.inr (Or.inr (Or.inr ⟨q, step_fail h⟩))))

/-! ### Everything is of some time -/

def Poll.seenHistograms : Poll F → Option (List HistogramReport)
  | .begun => none
  | .sawHistograms l => some l
  | .sawLoad l _ => some l
  | .answered payload => some payload.histograms

def Poll.seenLoad : Poll F → Option (Option (LoadClientMetrics F))
  | .begun => none
  | .sawHistograms _ => none
  | .sawLoad _ m => some m
  | .answered payload => some payload.loadClient

/-- What a request has seen is of times since it began, the load not before the histograms. -/
def PollSound (now : String) (history : List (Ingest F)) (since : ℕ) (poll : Poll F) : Prop :=
  ∃ k k', since ≤ k ∧ k ≤ k' ∧ k' ≤ history.length ∧
    (∀ l, poll.seenHistograms = some l → l = histogramsAt now history k) ∧
    ∀ m, poll.seenLoad = some m → m = loadAfter (history.take k')

/-- What holds of a site in every state. -/
structure Site.Sound (now : String) (s : Site F) : Prop where
  histograms_eq : s.server.histograms = histogramsAfter now s.history
  load_eq : s.server.loadClient = loadAfter s.history
  polls : ∀ q since poll, s.polls q = some (since, poll) → PollSound now s.history since poll
  cards : ∀ (i : ℕ) card, s.page.cards[i]? = some card →
    ∃ k ≤ s.history.length, (shownCards (histogramsAt now s.history k))[i]? = some card
  load : ∀ m, s.page.load = some m → ∃ k ≤ s.history.length,
    m = (loadAfter (s.history.take k)).map LoadClientMetrics.parse

theorem PollSound.append {since : ℕ} {poll : Poll F} (h : PollSound now history since poll)
    (i : Ingest F) : PollSound now (history ++ [i]) since poll := by
  obtain ⟨k, k', hsince, hk, hk', hhist, hload⟩ := h
  refine ⟨k, k', hsince, hk, ?_, ?_, ?_⟩
  · rw [List.length_append]
    exact Nat.le_add_right_of_le hk'
  · intro l hl
    rw [histogramsAt_append i (Nat.le_trans hk hk')]
    exact hhist l hl
  · intro m hm
    rw [List.take_append_of_le_length hk']
    exact hload m hm

/-- **One more lock.** -/
theorem PollSound.advance {since : ℕ} {poll poll' : Poll F} (hs : s.Sound now)
    (h : PollSound now s.history since poll) (hadv : Advances s.server poll poll') :
    PollSound now s.history since poll' := by
  obtain ⟨k, k', hsince, hk, hk', hhist, hload⟩ := h
  cases hadv with
  | histograms =>
      refine ⟨s.history.length, s.history.length, by omega, Nat.le_refl _, Nat.le_refl _, ?_, nofun⟩
      rintro l ⟨⟩
      rw [histogramsAt, List.take_length]
      exact hs.histograms_eq
  | load l =>
      refine ⟨k, s.history.length, hsince, by omega, Nat.le_refl _, hhist, ?_⟩
      rintro m ⟨⟩
      rw [List.take_length]
      exact hs.load_eq
  | answer l m => exact ⟨k, k', hsince, hk, hk', hhist, hload⟩

theorem Site.Sound.init (F : Type) (now : String) : (Site.init F now).Sound now where
  histograms_eq := rfl
  load_eq := rfl
  polls := nofun
  cards := by simp [Site.init, Page.init]
  load := nofun

theorem Site.Sound.ingest (h : s.Sound now) (i : Ingest F) : (s.ingest i).Sound now where
  histograms_eq := by
    show (s.server.ingest i).histograms = histogramsAfter now (s.history ++ [i])
    rw [histogramsAfter, List.filterMap_append, ingestAll_append, ← histogramsAfter]
    cases i with
    | histogram report => exact congrArg (ingestHistogram · report) h.histograms_eq
    | load body => exact h.histograms_eq
  load_eq := by
    show (s.server.ingest i).loadClient = loadAfter (s.history ++ [i])
    rw [loadAfter, List.filterMap_append]
    cases i with
    | histogram report =>
        rw [List.filterMap_cons_none rfl, List.filterMap_nil, List.append_nil]
        exact h.load_eq
    | load body => exact (List.getLast?_concat).symm
  polls := fun q since poll hpoll => (h.polls q since poll hpoll).append i
  cards := by
    intro j card hcard
    obtain ⟨k, hk, hshown⟩ := h.cards j card hcard
    refine ⟨k, ?_, ?_⟩
    · exact Nat.le_trans hk (List.length_append ▸ Nat.le_add_right _ _)
    · show (shownCards (histogramsAt now (s.history ++ [i]) k))[j]? = some card
      rw [histogramsAt_append i hk]
      exact hshown
  load := by
    intro m hm
    obtain ⟨k, hk, hshown⟩ := h.load m hm
    refine ⟨k, Nat.le_trans hk (List.length_append ▸ Nat.le_add_right _ _), ?_⟩
    show m = (loadAfter ((s.history ++ [i]).take k)).map LoadClientMetrics.parse
    rw [List.take_append_of_le_length hk]
    exact hshown

/-- A request begins, goes on or ends. -/
theorem Site.Sound.setPoll (h : s.Sound now) (q : ℕ) (new : Option (ℕ × Poll F))
    (hnew : ∀ since poll, new = some (since, poll) → PollSound now s.history since poll) :
    (s.setPoll q new).Sound now :=
  { h with
    polls := by
      intro r since poll hpoll
      have hpoll' : Function.update s.polls q new r = some (since, poll) := hpoll
      by_cases hr : r = q
      · rw [hr, Function.update_self] at hpoll'
        exact hnew since poll hpoll'
      · rw [Function.update_of_ne hr] at hpoll'
        exact h.polls r since poll hpoll' }

/-- A card of an earlier list has its id in a later one. -/
theorem id_of_card {i : ℕ} {card : Card}
    (hcard : (shownCards (histogramsAt now history k))[i]? = some card) :
    (chartIds (histogramsAfter now history))[i]? = some card.id := by
  have hearly : (chartIds (histogramsAt now history k))[i]? = some card.id := by
    rw [← ids_shownCards, List.getElem?_map, hcard]
    rfl
  obtain ⟨later, hlater⟩ := chartIds_histogramsAt now history k
  rw [← hlater, List.getElem?_append_left (List.getElem?_eq_some_iff.mp hearly).1]
  exact hearly

/-- The cards of the page and those of a list agree in their ids. -/
theorem Site.Sound.same_ids (h : s.Sound now) (k i : ℕ) (a b : Card)
    (ha : (shownCards (histogramsAt now s.history k))[i]? = some a)
    (hb : s.page.cards[i]? = some b) : a.id = b.id := by
  obtain ⟨k', -, hb'⟩ := h.cards i b hb
  exact Option.some.inj ((id_of_card ha).symm.trans (id_of_card hb'))

/-- **A response.** -/
theorem Site.Sound.tick (h : s.Sound now) {since : ℕ} {payload : MetricsPayload F}
    (hpoll : s.polls q = some (since, .answered payload)) :
    ({ s with page := s.page.tick payload.parse } : Site F).Sound now := by
  obtain ⟨k, k', hsince, hk, hk', hhist, hload⟩ := h.polls q since _ hpoll
  have hl := hhist payload.histograms rfl
  have hcards : (s.page.tick payload.parse).cards
      = shownCards payload.histograms ++ s.page.cards.drop payload.histograms.length :=
    tick_cards (by rw [hl]; exact h.same_ids k)
  refine { h with cards := ?_, load := ?_ }
  · intro i card hcard
    have hcard' : (s.page.tick payload.parse).cards[i]? = some card := hcard
    rw [hcards] at hcard'
    by_cases hi : i < (shownCards payload.histograms).length
    · rw [List.getElem?_append_left hi, hl] at hcard'
      exact ⟨k, Nat.le_trans hk hk', hcard'⟩
    · rw [List.getElem?_append_right (Nat.not_lt.mp hi), List.getElem?_drop] at hcard'
      have hlength := length_shownCards payload.histograms
      rw [show payload.histograms.length + (i - (shownCards payload.histograms).length) = i by
        omega] at hcard'
      exact h.cards i card hcard'
  · rintro m ⟨⟩
    exact ⟨k', hk', congrArg (Option.map LoadClientMetrics.parse) (hload _ rfl)⟩

/-- **One step keeps everything of some time.** -/
theorem Site.Sound.step (h : s.Sound now) (hs : s.step e = some s') : s'.Sound now := by
  rcases step_cases hs with ⟨ok, rfl⟩ | ⟨i, rfl⟩ | ⟨q, -, rfl⟩
    | ⟨q, since, poll, poll', hpoll, hadv, rfl⟩ | ⟨q, since, payload, hpoll, rfl⟩ | ⟨q, rfl⟩
  · exact { h with }
  · exact h.ingest i
  · refine h.setPoll q _ ?_
    rintro since poll ⟨⟩
    exact ⟨_, _, Nat.le_refl _, Nat.le_refl _, Nat.le_refl _, nofun, nofun⟩
  · refine h.setPoll q _ ?_
    rintro since' poll'' ⟨⟩
    exact (h.polls q since poll hpoll).advance h hadv
  · exact Site.Sound.setPoll (h.tick hpoll) q none nofun
  · exact h.setPoll q none nofun

theorem Site.Sound.run {es : List (SiteEvent F)}
    (hrun : run Site.step (Site.init F now) es = some s) : s.Sound now :=
  run_invariant (P := fun _ _ _ => True) (fun _ _ _ h _ hstep => h.step hstep)
    (Site.Sound.init F now) (eachStep_of_forall fun _ _ _ _ => trivial) hrun

/-- **What the page shows, the server held.**  Whatever the order of the steps: the charts of the
page are the first ones of the server, and the report of each is what the page reads of the one that
the server had in this place at some time; so are the numbers of the load generator. -/
theorem page_shows_held {es : List (SiteEvent F)}
    (hrun : run Site.step (Site.init F now) es = some s) :
    s.page.cards.map Card.id <+: chartIds s.server.histograms ∧
      (∀ (i : ℕ) card, s.page.cards[i]? = some card →
        ∃ k ≤ s.history.length,
          (histogramsAt now s.history k)[i]?.map HistogramReport.parse = some card.report) ∧
      ∀ m, s.page.load = some m → ∃ k ≤ s.history.length,
        m = (loadAfter (s.history.take k)).map LoadClientMetrics.parse := by
  have hs := Site.Sound.run hrun
  refine ⟨?_, ?_, hs.load⟩
  · rw [List.prefix_iff_getElem?, hs.histograms_eq]
    intro i hi
    rw [List.length_map] at hi
    rw [List.getElem_map]
    obtain ⟨k, -, hk⟩ := hs.cards i _ (List.getElem?_eq_getElem hi)
    exact id_of_card hk
  · intro i card hcard
    obtain ⟨k, hk, hshown⟩ := hs.cards i card hcard
    rw [getElem?_shownCards] at hshown
    obtain ⟨report, hreport, rfl⟩ := Option.map_eq_some_iff.mp hshown
    exact ⟨k, hk, by rw [hreport, Option.map_some]⟩

/-- Two requests, the first of which has read the list before a report comes, and is answered
last. -/
def lateAnswer : List (SiteEvent ℕ) :=
  [.tick 0, .readHistograms 0, .ingestHistogram (sampleReport "t1" "surrealdb" "vfs_read"), .tick 1,
    .readHistograms 1, .readLoad 1, .answer 1 "t2", .deliver 1, .readLoad 0, .answer 0 "t3",
    .deliver 0]

/-- An old answer can take the place of a newer one. -/
theorem page_shows_held_late :
    ∃ s, run Site.step (Site.init ℕ "t0") lateAnswer = some s ∧
      (s.page.updated, s.page.cards.map (·.report.ts)) = ("t3", ["t0", "t0", "t0"]) ∧
      s.server.histograms.map (·.ts) = ["t1", "t0", "t0"] ∧
      s.page.cards.map Card.id <+: chartIds s.server.histograms := by
  obtain ⟨s, hs⟩ : ∃ s, run Site.step (Site.init ℕ "t0") lateAnswer = some s := ⟨_, rfl⟩
  have hseen : (run Site.step (Site.init ℕ "t0") lateAnswer).map (fun s =>
      ((s.page.updated, s.page.cards.map (·.report.ts)), s.server.histograms.map (·.ts)))
      = some (("t3", ["t0", "t0", "t0"]), ["t1", "t0", "t0"]) := by decide
  rw [hs] at hseen
  have hpair := Option.some.inj hseen
  exact ⟨s, hs, congrArg Prod.fst hpair, congrArg Prod.snd hpair, (page_shows_held hs).1⟩

/-! ### A response is not older than its request -/

/-- Request `q`, if it is under way, began when `n` values or more were ingested. -/
def Site.Since (n q : ℕ) (s : Site F) : Prop :=
  n ≤ s.history.length ∧ ∀ since poll, s.polls q = some (since, poll) → n ≤ since

theorem Site.Since.ingest {n : ℕ} (h : s.Since n q) (i : Ingest F) : (s.ingest i).Since n q :=
  ⟨Nat.le_trans h.1 (List.length_append ▸ Nat.le_add_right _ _), h.2⟩

theorem Site.Since.setPoll {n : ℕ} (h : s.Since n q) (r : ℕ) (new : Option (ℕ × Poll F))
    (hnew : ∀ since poll, new = some (since, poll) → r = q → n ≤ since) :
    (s.setPoll r new).Since n q := by
  refine ⟨h.1, fun since poll hpoll => ?_⟩
  have hpoll' : Function.update s.polls r new q = some (since, poll) := hpoll
  by_cases hr : q = r
  · rw [hr, Function.update_self] at hpoll'
    exact hnew since poll hpoll' hr.symm
  · rw [Function.update_of_ne hr] at hpoll'
    exact h.2 since poll hpoll'

theorem Site.Since.step {n : ℕ} (h : s.Since n q) (hs : s.step e = some s') : s'.Since n q := by
  rcases step_cases hs with ⟨ok, rfl⟩ | ⟨i, rfl⟩ | ⟨r, -, rfl⟩
    | ⟨r, since, poll, poll', hpoll, -, rfl⟩ | ⟨r, since, payload, -, rfl⟩ | ⟨r, rfl⟩
  · exact h
  · exact h.ingest i
  · refine h.setPoll r _ ?_
    rintro since poll ⟨⟩ -
    exact h.1
  · refine h.setPoll r _ ?_
    rintro since' poll'' ⟨⟩ rfl
    exact h.2 since poll hpoll
  · exact Site.Since.setPoll h r none nofun
  · exact h.setPoll r none nofun

/-- A page with the cards of the whole list has no others. -/
theorem Site.Sound.cards_eq (h : s.Sound now)
    (hall : shownCards s.server.histograms <+: s.page.cards) :
    s.page.cards = shownCards s.server.histograms := by
  refine (hall.eq_of_length (Nat.le_antisymm hall.length_le ?_)).symm
  by_contra hlt
  have hi : (shownCards s.server.histograms).length < s.page.cards.length := by omega
  obtain ⟨k, -, hk⟩ := h.cards _ _ (List.getElem?_eq_getElem hi)
  have hid := (List.getElem?_eq_some_iff.mp (id_of_card hk)).1
  rw [← h.histograms_eq, ← ids_shownCards, List.length_map] at hid
  exact Nat.lt_irrefl _ hid

/-- **A response is not older than its request**, whatever happens in between and in whatever
order the responses come: the page shows the list of the server, and the load, of times since
the request began, the load's not before the list's.  If nothing was ingested since, the page
shows what it reads of what the server has. -/
theorem page_fresh {before mid : List (SiteEvent F)} {s₀ : Site F}
    (hbefore : run Site.step (Site.init F now) before = some s₀)
    (hrun : run Site.step s₀ (.tick q :: (mid ++ [.deliver q])) = some s) :
    ∃ k k', s₀.history.length ≤ k ∧ k ≤ k' ∧ k' ≤ s.history.length ∧
      shownCards (histogramsAt now s.history k) <+: s.page.cards ∧
      s.page.load = some ((loadAfter (s.history.take k')).map LoadClientMetrics.parse) ∧
      (s.history.length = s₀.history.length →
        s.page.cards = shownCards s.server.histograms ∧
          s.page.load = some (s.server.loadClient.map LoadClientMetrics.parse)) := by
  obtain ⟨s₁, htick, hrest⟩ := run_cons.mp hrun
  rw [run_append] at hrest
  obtain ⟨s₂, hmid, hlast⟩ := Option.bind_eq_some_iff.mp hrest
  obtain ⟨s₃, hdeliver, hend⟩ := run_cons.mp hlast
  cases hend
  have hs₁ := (Site.Sound.run hbefore).step htick
  have hs₂ : s₂.Sound now :=
    run_invariant (P := fun _ _ _ => True) (fun _ _ _ h _ hstep => h.step hstep) hs₁
      (eachStep_of_forall fun _ _ _ _ => trivial) hmid
  have hs := hs₂.step hdeliver
  have hsince₁ : s₁.Since s₀.history.length q := by
    obtain ⟨hnone, rfl⟩ := step_tick htick
    refine Site.Since.setPoll (s := s₀) ⟨Nat.le_refl _, ?_⟩ q _ ?_
    · intro since poll hpoll
      cases hnone.symm.trans hpoll
    · rintro since poll ⟨⟩ -
      exact Nat.le_refl _
  have hsince₂ : s₂.Since s₀.history.length q :=
    run_invariant (P := fun _ _ _ => True) (I := Site.Since s₀.history.length q)
      (fun _ _ _ h _ hstep => h.step hstep) hsince₁
      (eachStep_of_forall fun _ _ _ _ => trivial) hmid
  obtain ⟨since, payload, hpoll, rfl⟩ := step_deliver hdeliver
  obtain ⟨k, k', hsince, hk, hk', hhist, hload⟩ := hs₂.polls q since _ hpoll
  have hl := hhist payload.histograms rfl
  have hm := hload payload.loadClient rfl
  have hstart := Nat.le_trans (hsince₂.2 since _ hpoll) hsince
  have hcards : shownCards payload.histograms <+: (s₂.page.tick payload.parse).cards := by
    rw [tick_cards (by rw [hl]; exact hs₂.same_ids k)]
    exact List.prefix_append _ _
  have hshown : payload.loadClient.map LoadClientMetrics.parse
      = (loadAfter (s₂.history.take k')).map LoadClientMetrics.parse := congrArg _ hm
  refine ⟨k, k', hstart, hk, hk', hl ▸ hcards, congrArg some hshown, fun hquiet => ?_⟩
  have hquiet' : s₂.history.length = s₀.history.length := hquiet
  refine ⟨hs.cards_eq ?_, ?_⟩
  · show shownCards s₂.server.histograms <+: (s₂.page.tick payload.parse).cards
    rw [show k = s₂.history.length by omega, histogramsAt, List.take_length,
      ← hs₂.histograms_eq] at hl
    exact hl ▸ hcards
  · show some (payload.loadClient.map _) = some (s₂.server.loadClient.map _)
    rw [hm, hs₂.load_eq, show k' = s₂.history.length by omega, List.take_length]

/-- A later request puts this right. -/
theorem page_fresh_later :
    ∃ s₀ s, run Site.step (Site.init ℕ "t0") lateAnswer = some s₀ ∧
      run Site.step s₀
        (.tick 2 :: ([.readHistograms 2, .tick 1, .readLoad 2, .answer 2 "t4"] ++ [.deliver 2]))
        = some s ∧
      s.page.cards = shownCards s.server.histograms := by
  obtain ⟨s₀, hs₀⟩ : ∃ s, run Site.step (Site.init ℕ "t0") lateAnswer = some s := ⟨_, rfl⟩
  have hquiet : ∀ s₀, run Site.step (Site.init ℕ "t0") lateAnswer = some s₀ → ∃ s,
      run Site.step s₀
        (.tick 2 :: ([.readHistograms 2, .tick 1, .readLoad 2, .answer 2 "t4"] ++ [.deliver 2]))
        = some s ∧ s.history.length = s₀.history.length := by
    intro s₀ hs₀
    cases hs₀
    exact ⟨_, rfl, rfl⟩
  obtain ⟨s, hs, hlength⟩ := hquiet s₀ hs₀
  obtain ⟨_, _, -, -, -, -, -, hsettled⟩ := page_fresh hs₀ hs
  exact ⟨s₀, s, hs₀, hs, (hsettled hlength).1⟩

end NexusCore.Probe.Dashboard
