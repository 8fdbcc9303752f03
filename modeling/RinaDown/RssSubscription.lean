import RinaDown.RssItems

/-!
# One subscription of the RSS manager

The rows of a subscription, its configuration in the database and in memory, and the fetches under
way, with everything that the actor does with them, each as one step. What the environment decides
(the feed, which database statement fails, which task is created) is in the label of the step. The
history is read by no step.
-/

namespace RinaDown.RssSubscription

open CharacterPatterns RssFilter RssItems Texts

structure RssSourceInfo where
  name : Text
  enabled : Bool
  autoDownload : Bool
  intervalMinutes : ℤ
  rule : FilterRule
  notifyOnDownload : Bool
  maxPerFetch : ℤ
  lastFetchAt : ℤ
  lastSuccessAt : ℤ
  lastError : String
  failCount : ℤ
  seeded : Bool
deriving Repr, DecidableEq

/-- The legal ranges of the fields that a user writes. -/
def RssSourceInfo.normalize (source : RssSourceInfo) : RssSourceInfo :=
  { source with
    intervalMinutes := max source.intervalMinutes 1
    maxPerFetch := min (max source.maxPerFetch 1) 100
    rule := { source.rule with
      sizeMinBytes := max source.rule.sizeMinBytes 0
      sizeMaxBytes := max source.rule.sizeMaxBytes 0 }
    name := trim source.name }

/-- `update_rss_source`: the running state stays. -/
def updateRssSource (stored edit : RssSourceInfo) : RssSourceInfo :=
  { edit with
    lastFetchAt := stored.lastFetchAt
    lastSuccessAt := stored.lastSuccessAt
    lastError := stored.lastError
    failCount := stored.failCount
    seeded := stored.seeded }

def maxBackoffSecs : ℤ := 6 * 3600

/-- The interval doubled by every failure, up to the longest backoff and never below the
interval itself. -/
def effectiveIntervalSecs (source : RssSourceInfo) : ℤ :=
  let base := max source.intervalMinutes 1 * 60
  let shift := (min (max source.failCount 0) 32).toNat
  max (min (base * 2 ^ shift) maxBackoffSecs) base

def maxItemsPerSource : ℤ := 500

structure ParsedItem where
  guid : Text
  title : Text
  link : Text
  enclosureUrl : Text
  enclosureLength : ℤ
  pubDate : ℤ
deriving Repr, DecidableEq

structure RssFetchOutcome where
  feedTitle : Text
  items : List ParsedItem
  error : String
deriving Repr, DecidableEq

structure RssDownloadPlan where
  guid : Text
  title : Text
  url : Text
  notify : Bool
deriving Repr, DecidableEq

def isMagnetUrl (url : Text) : Bool :=
  (url.take 8).map Char.toLower == "magnet:?".toList

/-- The plan's address is that of a torrent file. -/
def RssDownloadPlan.isTorrentFile (plan : RssDownloadPlan) : Bool :=
  if isMagnetUrl plan.url then false
  else
    let lowered := plan.url.map Char.toLower
    let path := lowered.takeWhile fun c => c != '?' && c != '#'
    ".torrent".toList.isSuffixOf path || contains lowered ".torrent".toList

def planFor (source : RssSourceInfo) (item : RssItemInfo) : RssDownloadPlan where
  guid := item.guid
  title := item.title
  url := item.downloadUrl
  notify := source.notifyOnDownload

def itemFromParsed (parsed : ParsedItem) (fetchedAt : ℤ) : RssItemInfo where
  guid := parsed.guid
  title := parsed.title
  link := parsed.link
  enclosureUrl := parsed.enclosureUrl
  enclosureLength := parsed.enclosureLength
  pubDate := parsed.pubDate
  fetchedAt := fetchedAt
  status := .new
  taskId := []
  episodeKey := []
  reason := ""

inductive Event where
  | feed (guids : List Text)
  | accepted (guid : Text)
  | status (guid : Text) (status : RssItemStatus)
  | disposed (guid : Text)
  | dispatched (guid : Text) (status : RssItemStatus)
  | task (guid : Text) (automatic : Bool)
deriving Repr, DecidableEq

structure Subscription where
  rows : List RssItemInfo
  stored : Option RssSourceInfo
  source : Option RssSourceInfo
  inFlight : Bool
  fetches : ℕ
  torrents : List (RssDownloadPlan × Bool)
  history : List Event
deriving Repr, DecidableEq

/-- What the environment decides while a feed result is applied: which statements succeed,
and for each guid the created task and whether its row can be written. -/
structure Round where
  outcome : RssFetchOutcome
  now : ℤ
  knownOk : Bool
  takenOk : Bool
  backfillOk : Bool
  insertOk : Bool
  pruneOk : Bool
  persistOk : Bool
  selectOk : Bool
  loadOk : Bool
  created : Text → Option Text
  marked : Text → Bool
  reloadOk : Bool

inductive Label where
  | tick (now : ℤ)
  | refreshNow (now : ℤ)
  | fetched (round : Round)
  | torrentReady (i : ℕ) (error : String) (created : Option Text) (marked loadOk : Bool)
  | manualDownload (guid : Text) (readOk : Bool) (created : Option Text) (marked loadOk : Bool)
  | ignoreItem (guid : Text) (ok loadOk : Bool)
  | markAllRead (ok loadOk : Bool)
  | updateSource (edit : RssSourceInfo) (ok loadOk : Bool)
  | deleteSource (ok loadOk : Bool)

/-! ## Fetches -/

variable (s : Subscription)

/-- `broadcast_sources`: the mirror is read again, if the database can be read. -/
def Subscription.broadcastSources (ok : Bool) : Subscription :=
  if ok then { s with source := s.stored } else s

def Subscription.dispatchFetch (now : ℤ) : Subscription :=
  match s.source with
  | none => s
  | some source =>
      { s with
        source := some { source with lastFetchAt := now }
        inFlight := true
        fetches := s.fetches + 1 }

/-- `due_sources` for this subscription. -/
def Subscription.isDue (now : ℤ) : Bool :=
  s.source.any fun source =>
    source.enabled && !s.inFlight && decide (now - source.lastFetchAt ≥ effectiveIntervalSecs source)

def Subscription.tick (now : ℤ) : Subscription :=
  if s.isDue now then s.dispatchFetch now else s

def Subscription.refreshNow (now : ℤ) : Subscription :=
  if s.inFlight || s.source.isNone then s else s.dispatchFetch now

/-! ## The result of a feed fetch -/

def seedRow (p : Platform) (source : RssSourceInfo) (row : RssItemInfo) : RssItemInfo :=
  { row with
    status := .seedSkipped
    reason := "seed_skipped"
    episodeKey := if source.rule.smartEpisode then (episodeKey p row.title).getD [] else [] }

def judgedRow (row : RssItemInfo) : Verdict → RssItemInfo
  | .accept key => { row with episodeKey := key }
  | .reject reason key =>
      { row with status := itemStatus reason, reason := reason.code, episodeKey := key }

/-- The rows for the items of a feed that are not known: seed-skipped in the first round,
later as the rule judges them. -/
def freshRows (p : Platform) (source : RssSourceInfo) (known : List Text) (now : ℤ)
    (firstRound : Bool) : List ParsedItem → List Text → List RssItemInfo
  | [], _ => []
  | parsed :: items, taken =>
      if parsed.guid = [] ∨ parsed.guid ∈ known then
        freshRows p source known now firstRound items taken
      else
        let row := itemFromParsed parsed now
        if firstRound then
          seedRow p source row :: freshRows p source known now firstRound items taken
        else
          let judged := (CompiledRule.new p source.rule).evaluate p row.title row.enclosureLength taken
          judgedRow row judged.1 :: freshRows p source known now firstRound items judged.2

def backfillOf (known : List Text) (items : List ParsedItem) : List (Text × ℤ) :=
  (items.filter fun parsed => 0 < parsed.pubDate ∧ parsed.guid ∈ known).map fun parsed =>
    (parsed.guid, parsed.pubDate)

def Subscription.record (events : List Event) : Subscription :=
  { s with history := s.history ++ events }

def Subscription.note : Subscription :=
  s.record (s.rows.map fun r => .status r.guid r.status)

/-- `persist_runtime`: the database if it can be written, the mirror in any case. -/
def Subscription.persistRuntime (ok : Bool) (runtime : RssSourceInfo → RssSourceInfo) :
    Subscription :=
  { s with
    stored := if ok then s.stored.map runtime else s.stored
    source := s.source.map runtime }

def failed (source : RssSourceInfo) (now : ℤ) (error : String) (current : RssSourceInfo) :
    RssSourceInfo :=
  { current with
    lastFetchAt := now
    lastSuccessAt := source.lastSuccessAt
    lastError := error
    failCount := min (source.failCount + 1) (2 ^ 31 - 1)
    seeded := source.seeded
    name := source.name }

def succeeded (source : RssSourceInfo) (now : ℤ) (feedTitle : Text) (current : RssSourceInfo) :
    RssSourceInfo :=
  { current with
    lastFetchAt := now
    lastSuccessAt := now
    lastError := ""
    failCount := 0
    seeded := true
    name := if source.name = [] ∧ feedTitle ≠ [] then feedTitle else source.name }

def Subscription.known (round : Round) : List Text :=
  if round.knownOk then rssKnownGuids s.rows else []

def Subscription.fresh (p : Platform) (source : RssSourceInfo) (round : Round) :
    List RssItemInfo :=
  let taken := if source.rule.smartEpisode && round.takenOk then rssTakenEpisodeKeys s.rows else []
  freshRows p source (s.known round) round.now (!source.seeded) round.outcome.items taken

/-- The items without a row that the rule accepts in a round. -/
def Subscription.acceptedItems (p : Platform) (source : RssSourceInfo) (round : Round) :
    List Event :=
  ((addedRows (rssKnownGuids s.rows) (s.fresh p source round)).filter (·.status = .new)).map
    fun r => .accepted r.guid

/-- The rows after the backfill and the insert of a round. A row cannot be inserted for a
subscription that the database no longer has. -/
def Subscription.rowsWithFeed (p : Platform) (source : RssSourceInfo) (round : Round) :
    List RssItemInfo :=
  let rows :=
    if round.backfillOk then
      backfillRssPubDates s.rows (backfillOf (s.known round) round.outcome.items)
    else s.rows
  if round.insertOk && s.stored.isSome then insertRssItems rows (s.fresh p source round) else rows

def pruned (round : Round) (rows : List RssItemInfo) : List RssItemInfo :=
  if round.pruneOk then pruneRssItems rows maxItemsPerSource else rows

def selected (source : RssSourceInfo) (round : Round) (rows : List RssItemInfo) :
    List RssItemInfo :=
  if source.autoDownload && source.seeded && round.selectOk then
    rssDispatchableItems rows source.maxPerFetch
  else []

/-- The rows are filled and noted, then pruned. -/
def Subscription.fillRows (p : Platform) (source : RssSourceInfo) (round : Round) : Subscription :=
  let filled := s.record
    (.feed (round.outcome.items.map (·.guid)) :: s.acceptedItems p source round)
  let filled := Subscription.note
    { filled with inFlight := false, rows := s.rowsWithFeed p source round }
  { filled with rows := pruned round filled.rows }

def Subscription.applyFetch (p : Platform) (round : Round) :
    Subscription × List RssDownloadPlan :=
  match s.source with
  | none => ({ s with inFlight := false }, [])
  | some source =>
      if round.outcome.error ≠ "" then
        let failing := Subscription.persistRuntime { s with inFlight := false } round.persistOk
          (failed source round.now round.outcome.error)
        (failing.broadcastSources round.loadOk, [])
      else
        let filled := s.fillRows p source round
        let applied := filled.persistRuntime round.persistOk
          (succeeded source round.now round.outcome.feedTitle)
        let items := selected source round filled.rows
        let dispatched := applied.record (items.map fun item => .dispatched item.guid item.status)
        (dispatched.broadcastSources round.loadOk, items.map (planFor source))

/-! ## The creation of tasks -/

/-- `finish_rss_task`: a created task is recorded in the row of its item. -/
def Subscription.finishRssTask (automatic : Bool) (guid : Text) (created : Option Text)
    (marked : Bool) : Subscription :=
  match created with
  | none => s
  | some taskId =>
      let recorded := s.record [.task guid automatic]
      if marked then
        Subscription.note
          { recorded with rows := setRssItemStatus s.rows guid .downloaded "" taskId }
      else recorded

/-- A torrent file is fetched first; any other address becomes a task at once. -/
def Subscription.createRssTask (automatic : Bool) (plan : RssDownloadPlan)
    (created : Option Text) (marked : Bool) : Subscription :=
  if plan.isTorrentFile then { s with torrents := s.torrents ++ [(plan, automatic)] }
  else s.finishRssTask automatic plan.guid created marked

def Subscription.createRssTasks (round : Round) (plans : List RssDownloadPlan) : Subscription :=
  plans.foldl (fun s plan =>
    s.createRssTask true plan (round.created plan.guid) (round.marked plan.guid)) s

def notifies (round : Round) (plans : List RssDownloadPlan) : Bool :=
  plans.any fun plan => !plan.isTorrentFile && plan.notify && (round.created plan.guid).isSome

/-- `on_rss_event` for the result of a feed fetch. -/
def Subscription.onFetched (p : Platform) (round : Round) : Subscription :=
  let applied := s.applyFetch p round
  let s := applied.1.createRssTasks round applied.2
  if notifies round applied.2 then s.broadcastSources round.reloadOk else s

/-- `on_rss_torrent_ready`. -/
def Subscription.onTorrentReady (plan : RssDownloadPlan) (automatic : Bool) (error : String)
    (created : Option Text) (marked loadOk : Bool) : Subscription :=
  if error ≠ "" then s
  else if created.isNone then s
  else (s.finishRssTask automatic plan.guid created marked).broadcastSources loadOk

/-- `download_rss_item`. -/
def Subscription.downloadRssItem (guid : Text) (readOk : Bool) (created : Option Text)
    (marked loadOk : Bool) : Subscription :=
  match s.source, if readOk then s.rows.find? (·.guid = guid) else none with
  | some source, some item =>
      (s.createRssTask false (planFor source item) created marked).broadcastSources loadOk
  | _, _ => s

/-! ## The actions of the user -/

def Subscription.ignoreItem (guid : Text) (ok loadOk : Bool) : Subscription :=
  if ok then
    let recorded := s.record (if guid ∈ rssKnownGuids s.rows then [.disposed guid] else [])
    let ignored := Subscription.note
      { recorded with rows := setRssItemStatus s.rows guid .ignored "" [] }
    ignored.broadcastSources loadOk
  else s

def Subscription.markAllRead (ok loadOk : Bool) : Subscription :=
  if ok then
    let recorded := s.record ((s.rows.filter (·.status = .new)).map fun r => .disposed r.guid)
    let read := Subscription.note { recorded with rows := markAllRssItemsRead s.rows }
    read.broadcastSources loadOk
  else s

def Subscription.updateSource (edit : RssSourceInfo) (ok loadOk : Bool) : Subscription :=
  if s.source.isNone || !ok then s
  else
    Subscription.broadcastSources
      { s with stored := s.stored.map fun stored => updateRssSource stored edit.normalize } loadOk

def Subscription.deleteSource (ok loadOk : Bool) : Subscription :=
  if s.source.isNone || !ok then s
  else Subscription.broadcastSources { s with rows := [], stored := none, inFlight := false } loadOk

/-- One step of the actor. A feed result needs a fetch under way, a torrent result a torrent
fetch under way; both arrive in any order. -/
def step (p : Platform) (s : Subscription) : Label → Option Subscription
  | .tick now => some (s.tick now)
  | .refreshNow now => some (s.refreshNow now)
  | .fetched round =>
      match s.fetches with
      | 0 => none
      | n + 1 => some (Subscription.onFetched { s with fetches := n } p round)
  | .torrentReady i error created marked loadOk =>
      match s.torrents[i]? with
      | none => none
      | some (plan, automatic) =>
          some (Subscription.onTorrentReady { s with torrents := s.torrents.eraseIdx i } plan
            automatic error created marked loadOk)
  | .manualDownload guid readOk created marked loadOk =>
      some (s.downloadRssItem guid readOk created marked loadOk)
  | .ignoreItem guid ok loadOk => some (s.ignoreItem guid ok loadOk)
  | .markAllRead ok loadOk => some (s.markAllRead ok loadOk)
  | .updateSource edit ok loadOk => some (s.updateSource edit ok loadOk)
  | .deleteSource ok loadOk => some (s.deleteSource ok loadOk)

/-- A subscription as `create_source` leaves it: no rows, not seeded, nothing under way. -/
structure Initial (s : Subscription) : Prop where
  rows : s.rows = []
  source : s.source = s.stored
  seeded : ∀ source ∈ s.source, source.seeded = false
  fetches : s.fetches = 0
  inFlight : s.inFlight = false
  torrents : s.torrents = []
  history : s.history = []

end RinaDown.RssSubscription
