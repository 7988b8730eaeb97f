import Mathlib
import RedisCache.Lib.Http
import RedisCache.Lib.Numerals
import RedisCache.Lib.Text
import RedisCache.Metrics.Metrics
import RedisCache.Network.Serial

/-!
# The metrics page

`HttpServer.cpp` and `Metrics::prometheus_text`: what a client gets for the
bytes it sends. It is read back by a client of its own: `Http.read` finds where
the body ends, and `scrape` takes the samples out of a page.

`page_scraped`: from what comes back for `/metrics` the scraper gets the numbers
of the snapshot, and a response cut short gives it nothing.
`page_counts_commands` joins this with the event loop: the number of commands on
the page is the number of requests that all connections together have executed.
-/

namespace RedisCache.Metrics

open Decimal Framing Loop Network EventLoop Protocol

/-! ## The text -/

/-- One metric of the page. -/
structure Sample where
  name : Bytes
  help : Bytes
  kind : Bytes
  value : Bytes
  name_word : name.head? ≠ some 35 ∧ 32 ∉ name ∧ 10 ∉ name
  help_line : 10 ∉ help
  kind_line : 10 ∉ kind
  value_line : 10 ∉ value

namespace Sample

def helpLine (s : Sample) : Bytes := ascii "# HELP " ++ (s.name ++ 32 :: s.help)

def typeLine (s : Sample) : Bytes := ascii "# TYPE " ++ (s.name ++ 32 :: s.kind)

def valueLine (s : Sample) : Bytes := s.name ++ 32 :: s.value

def text (s : Sample) : Bytes :=
  s.helpLine ++ 10 :: (s.typeLine ++ 10 :: (s.valueLine ++ [10]))

/-- The words of the source, and a value that stays on its line. -/
def of (name help kind : String) (value : Bytes) (hvalue : 10 ∉ value)
    (hname : (ascii name).head? ≠ some 35 ∧ 32 ∉ ascii name ∧ 10 ∉ ascii name)
    (hhelp : 10 ∉ ascii help) (hkind : 10 ∉ ascii kind) : Sample :=
  ⟨ascii name, ascii help, ascii kind, value, hname, hhelp, hkind, hvalue⟩

end Sample

theorem ofInt_line (v : Int) : 10 ∉ ofInt v := notMem_ofInt (by decide) (by decide)

/-- The metrics of the page, in its order. -/
def samples (D : Doubles) (s : Snapshot) : List Sample :=
  [.of "cache_commands_total" "Total commands executed" "counter"
      (ofInt s.totalCommands) (ofInt_line _)
      (by decide +kernel) (by decide +kernel) (by decide +kernel),
    .of "cache_hits_total" "Total cache hits" "counter"
      (ofInt s.totalHits) (ofInt_line _)
      (by decide +kernel) (by decide +kernel) (by decide +kernel),
    .of "cache_misses_total" "Total cache misses" "counter"
      (ofInt s.totalMisses) (ofInt_line _)
      (by decide +kernel) (by decide +kernel) (by decide +kernel),
    .of "cache_active_connections" "Current active connections" "gauge"
      (ofInt s.activeConnections) (ofInt_line _)
      (by decide +kernel) (by decide +kernel) (by decide +kernel),
    .of "cache_key_count" "Current number of keys" "gauge"
      (ofInt s.keyCount) (ofInt_line _)
      (by decide +kernel) (by decide +kernel) (by decide +kernel),
    .of "cache_memory_bytes" "Approximate memory usage" "gauge"
      (ofInt s.memoryBytes) (ofInt_line _)
      (by decide +kernel) (by decide +kernel) (by decide +kernel),
    .of "cache_avg_latency_us" "Exponentially-weighted average command latency" "gauge"
      (D.average s.latencyEmaX100) (D.average_line _)
      (by decide +kernel) (by decide +kernel) (by decide +kernel),
    .of "cache_hit_rate" "Cache hit rate (0-1)" "gauge"
      (D.share s.totalHits s.total) (D.share_line _ _)
      (by decide +kernel) (by decide +kernel) (by decide +kernel),
    .of "cache_commands_per_sec" "Commands per second" "gauge"
      (ofInt s.commandsPerSec) (ofInt_line _)
      (by decide +kernel) (by decide +kernel) (by decide +kernel)]

/-- `Metrics::prometheus_text`, for the snapshot it takes. -/
def prometheusText (D : Doubles) (s : Snapshot) : Bytes := (samples D s).flatMap Sample.text

/-! ## The server -/

/-- The body for `/stats`. -/
def statsText (D : Doubles) (s : Snapshot) : Bytes :=
  ascii "\x7b\"total_commands\":" ++ ofInt s.totalCommands ++
    ascii ",\"total_hits\":" ++ ofInt s.totalHits ++
    ascii ",\"total_misses\":" ++ ofInt s.totalMisses ++
    ascii ",\"active_connections\":" ++ ofInt s.activeConnections ++
    ascii ",\"key_count\":" ++ ofInt s.keyCount ++
    ascii ",\"memory_bytes\":" ++ ofInt s.memoryBytes ++
    ascii ",\"avg_latency_us\":" ++ D.average s.latencyEmaX100 ++
    ascii ",\"hit_rate\":" ++ D.share s.totalHits s.total ++
    ascii ",\"commands_per_sec\":" ++ ofInt s.commandsPerSec ++ ascii "\x7d"

/-- `HttpServer::route`. The method is not looked at. -/
def route (D : Doubles) (seen : Nat → Counters) (nowMs : Int) (w : Window) (path : Bytes) :
    Bytes × Window :=
  if path = ascii "/metrics" then
    (prometheusText D (snapshot seen nowMs w).1, (snapshot seen nowMs w).2)
  else if path = ascii "/health" then (ascii "\x7b\"status\":\"ok\"\x7d", w)
  else if path = ascii "/stats" then
    (statsText D (snapshot seen nowMs w).1, (snapshot seen nowMs w).2)
  else (ascii "\x7b\"error\":\"not found\"\x7d", w)

def contentType (path : Bytes) : Bytes :=
  if path = ascii "/metrics" then ascii "text/plain; version=0.0.4; charset=utf-8"
  else ascii "application/json"

def response (contentType body : Bytes) : Bytes :=
  ascii "HTTP/1.1 200 OK\r\nContent-Type: " ++ contentType ++
    ascii "\r\nContent-Length: " ++ ofNat body.length ++
    ascii "\r\nAccess-Control-Allow-Origin: *\r\nConnection: close\r\n\r\n" ++ body

/-- `ss >> method >> path`. -/
def pathOf (req : Bytes) : Bytes := (Text.word isSpace (Text.word isSpace req).2).1

/-- `HttpServer::handle_client`, for what one `recv` gives; nothing if it fails or
the client is gone. -/
def handleClient (D : Doubles) (seen : Nat → Counters) (nowMs : Int) (w : Window) (req : Bytes) :
    Option Bytes × Window :=
  if req = [] then (none, w)
  else
    let path := pathOf req
    let (body, w) := route D seen nowMs w path
    (some (response (contentType path) body), w)

/-! ## The way back -/

/-- The samples of a page: the lines that are no remarks, cut at the blank. -/
def scrape (page : Bytes) : List (Bytes × Bytes) :=
  (Text.lines 10 page).filterMap fun l => if l.head? = some 35 then none else Text.cut 32 l

theorem scrape_line {l : Bytes} (h : 10 ∉ l) (rest : Bytes) :
    scrape (l ++ 10 :: rest) =
      (if l.head? = some 35 then none else Text.cut 32 l).toList ++ scrape rest := by
  rw [scrape, Text.lines_append h, List.filterMap_cons, scrape]
  cases (if l.head? = some 35 then none else Text.cut 32 l) <;> rfl

theorem Sample.scrape_text (s : Sample) (rest : Bytes) :
    scrape (s.text ++ rest) = (s.name, s.value) :: scrape rest := by
  obtain ⟨hhead, hblank, hend⟩ := s.name_word
  have hhelp : 10 ∉ s.helpLine := by
    simp only [helpLine, List.mem_append, List.mem_cons, not_or]
    exact ⟨by decide +kernel, hend, by decide, s.help_line⟩
  have htype : 10 ∉ s.typeLine := by
    simp only [typeLine, List.mem_append, List.mem_cons, not_or]
    exact ⟨by decide +kernel, hend, by decide, s.kind_line⟩
  have hvalue : 10 ∉ s.valueLine := by
    simp only [valueLine, List.mem_append, List.mem_cons, not_or]
    exact ⟨hend, by decide, s.value_line⟩
  have hline : s.valueLine.head? ≠ some 35 := by
    rw [valueLine]
    cases hname : s.name with
    | nil => simp
    | cons b name => simpa [hname] using hhead
  have hremark : s.helpLine.head? = some 35 ∧ s.typeLine.head? = some 35 := ⟨rfl, rfl⟩
  have htext : s.text ++ rest =
      s.helpLine ++ 10 :: (s.typeLine ++ 10 :: (s.valueLine ++ 10 :: rest)) := by
    simp only [text, List.append_assoc, List.cons_append, List.nil_append]
  rw [htext, scrape_line hhelp, scrape_line htype, scrape_line hvalue, if_pos hremark.1,
    if_pos hremark.2, if_neg hline, valueLine, Text.cut_append hblank]
  rfl

theorem scrape_flatMap (ss : List Sample) :
    scrape (ss.flatMap Sample.text) = ss.map fun s => (s.name, s.value) := by
  induction ss with
  | nil => rfl
  | cons s ss ih => rw [List.flatMap_cons, s.scrape_text, ih, List.map_cons]

/-- The lines before the body. -/
def headLines (contentType : Bytes) (n : Nat) : List Bytes :=
  [ascii "HTTP/1.1 200 OK", ascii "Content-Type: " ++ contentType,
    ascii "Content-Length: " ++ ofNat n, ascii "Access-Control-Allow-Origin: *",
    ascii "Connection: close"]

theorem response_eq (contentType body : Bytes) :
    response contentType body = Http.message (headLines contentType body.length) body := by
  have hfirst : ascii "HTTP/1.1 200 OK\r\nContent-Type: " =
      ascii "HTTP/1.1 200 OK" ++ (Http.eol ++ ascii "Content-Type: ") := by decide +kernel
  have hsecond : ascii "\r\nContent-Length: " = Http.eol ++ ascii "Content-Length: " := by
    decide +kernel
  have hthird : ascii "\r\nAccess-Control-Allow-Origin: *\r\nConnection: close\r\n\r\n" =
      Http.eol ++ (ascii "Access-Control-Allow-Origin: *" ++ (Http.eol ++
        (ascii "Connection: close" ++ (Http.eol ++ Http.eol)))) := by
    decide +kernel
  simp only [response, hfirst, hsecond, hthird, Http.message, headLines, List.flatMap_cons,
    List.flatMap_nil, List.append_assoc, List.nil_append]

theorem headLines_isLine (path : Bytes) (n : Nat) :
    ∀ l ∈ headLines (contentType path) n, Http.IsLine l := by
  have htype : 13 ∉ contentType path := by
    rw [contentType]
    split <;> decide +kernel
  have hnumber : 13 ∉ ofNat n := by
    intro h
    exact absurd (isDigit_of_mem_ofNat h) (by decide)
  intro l hl
  simp only [headLines, List.mem_cons, List.not_mem_nil, or_false] at hl
  rcases hl with rfl | rfl | rfl | rfl | rfl
  · exact ⟨by decide +kernel, by decide +kernel⟩
  · refine ⟨List.append_ne_nil_of_left_ne_nil (by decide +kernel) _, ?_⟩
    rw [List.mem_append, not_or]
    exact ⟨by decide +kernel, htype⟩
  · refine ⟨List.append_ne_nil_of_left_ne_nil (by decide +kernel) _, ?_⟩
    rw [List.mem_append, not_or]
    exact ⟨by decide +kernel, hnumber⟩
  · exact ⟨by decide +kernel, by decide +kernel⟩
  · exact ⟨by decide +kernel, by decide +kernel⟩

theorem bodyLength_headLines (path : Bytes) (n : Nat) :
    Http.bodyLength (headLines (contentType path) n) = some n := by
  have hfield : ascii "Content-Length: " = Http.lengthField := rfl
  have hlength : Http.lengthField.length = 16 := rfl
  have hstatus : (ascii "HTTP/1.1 200 OK").take 16 ≠ Http.lengthField := by decide +kernel
  have htype : (ascii "Content-Type: " ++ contentType path).take 16 ≠ Http.lengthField := by
    rw [contentType]
    split <;> decide +kernel
  simp only [Http.bodyLength, headLines, List.findSome?_cons, if_neg hstatus, if_neg htype, hfield]
  rw [← hlength, List.take_left, List.drop_left, if_pos rfl, value_ofNat]

/-- What the client reads, whatever the path. -/
theorem handleClient_read (D : Doubles) (seen : Nat → Counters) (nowMs : Int) (w : Window)
    {req : Bytes} (hreq : req ≠ []) :
    ∃ sent, (handleClient D seen nowMs w req).1 = some sent ∧
      Http.read sent = some (route D seen nowMs w (pathOf req)).1 ∧
      ∀ p, CutOf p sent → Http.read p = none := by
  refine ⟨_, congrArg Prod.fst (if_neg hreq), ?_, ?_⟩
  · rw [response_eq]
    exact Http.read_message (headLines_isLine _ _) (bodyLength_headLines _ _)
  · intro p hp
    rw [response_eq] at hp
    exact Http.read_cut (headLines_isLine _ _) (bodyLength_headLines _ _) hp

theorem handleClient_metrics (D : Doubles) (seen : Nat → Counters) (nowMs : Int) (w : Window)
    {req : Bytes} (hpath : pathOf req = ascii "/metrics") :
    ∃ sent body, (handleClient D seen nowMs w req).1 = some sent ∧ Http.read sent = some body ∧
      scrape body = (samples D (snapshot seen nowMs w).1).map (fun s => (s.name, s.value)) ∧
      ∀ p, CutOf p sent → Http.read p = none := by
  have hreq : req ≠ [] := by
    rintro rfl
    exact absurd hpath (by decide +kernel)
  obtain ⟨sent, hsent, hbody, hcut⟩ := handleClient_read D seen nowMs w hreq
  rw [hpath, route, if_pos rfl] at hbody
  exact ⟨sent, _, hsent, hbody, scrape_flatMap _, hcut⟩

/-- A scraper's request. -/
def scrapeRequest : Bytes := ascii "GET /metrics HTTP/1.1\r\nHost: localhost\r\n\r\n"

section Commands

variable {σ : Type} (D : Doubles) (latency : RespValue → σ → Int) (dispatch : Dispatch σ)

/-- A request and `record_command` after it, as in `Connection::process_commands`.
The latency is any. -/
def counted : Dispatch (σ × Counters) :=
  fun req s =>
    ((dispatch req s.1).1, (dispatch req s.1).2, s.2.recordCommand D (latency req s.1))

theorem serve_counted (vs : List RespValue) {s : σ × Counters} {x : Int}
    (h : s.2.totalCommands = i64 x) :
    (Conn.serve (counted D latency dispatch) vs s).2.2.totalCommands = i64 (x + vs.length) := by
  induction vs generalizing s x with
  | nil => simpa [Conn.serve] using h
  | cons v vs ih =>
      have hone : (counted D latency dispatch v s).2.2.totalCommands = i64 (x + 1) := by
        show i64 (s.2.totalCommands + 1) = i64 (x + 1)
        rw [h, i64_add_left]
      rw [Conn.serve, ih hone, List.length_cons]
      congr 1
      push_cast
      ring

/-- The counting changes no reply. -/
theorem exchanges_counted (vs : List RespValue) (s : σ × Counters) :
    exchanges (counted D latency dispatch) vs s = exchanges dispatch vs s.1 := by
  induction vs generalizing s with
  | nil => rfl
  | cons v vs ih =>
      rw [exchanges, exchanges, ih]
      rfl

/-- **The page counts the requests.** The event loop has served any connections;
whoever asks for `/metrics` then finds as `cache_commands_total` the number of
requests executed for all of them, those that are gone included. There is one
serial order of just these requests, and the replies in it are those of a
server without metrics. -/
theorem page_counts_commands (P : Platform) (s₀ : σ) {polls : List (List Ready)}
    {L : EventLoop (σ × Counters)}
    (hrun : EventLoop.run P (counted D latency dispatch) { store := (s₀, {}) } polls =
      some (.ok L))
    (later : Nat → Counters) (nowMs : Int) (w : Window) (req : Bytes)
    (hpath : pathOf req = ascii "/metrics") :
    ∃ names order sent body,
      Serial (counted D latency dispatch) (s₀, {}) L names order ∧
      order.map Prod.snd = exchanges dispatch (requests order) s₀ ∧
      (handleClient D (fun i => if i = 0 then L.store.2 else later i) nowMs w req).1 =
        some sent ∧
      Http.read sent = some body ∧
      (scrape body).lookup (ascii "cache_commands_total") = some (ofInt (i64 order.length)) := by
  obtain ⟨names, order, hserial, -⟩ :=
    (Serial.start (counted D latency dispatch) (s₀, {})).run P (Sound.start _) hrun
  rw [List.nil_append] at hserial
  obtain ⟨sent, body, hsent, hbody, hscrape, -⟩ := handleClient_metrics D
    (fun i => if i = 0 then L.store.2 else later i) nowMs w hpath
  have htotal : L.store.2.totalCommands = i64 order.length := by
    have hcount := serve_counted D latency dispatch (requests order) (s := (s₀, {})) (x := 0) rfl
    rw [hserial.store, hcount, requests, List.length_map, zero_add]
  refine ⟨names, order, sent, body, hserial, ?_, hsent, hbody, ?_⟩
  · rw [hserial.replied, exchanges_counted]
  · rw [hscrape, ← htotal]
    rfl

end Commands

theorem page_counts_commands_reused :
    ∃ (L : EventLoop (Int × Counters)) (names : Names) (order : Schedule) (sent body : Bytes),
      L.store.2.totalCommands = 3 ∧
      Serial (counted .zero (fun _ _ => 7) counting) (0, {}) L names order ∧
      (handleClient .zero (fun i => if i = 0 then L.store.2 else {}) 2000 {} scrapeRequest).1 =
        some sent ∧
      Http.read sent = some body ∧
      (scrape body).lookup (ascii "cache_commands_total") = some (ofInt (i64 order.length)) := by
  obtain ⟨L, hrun⟩ := exists_ok (r := EventLoop.run .concrete
    (counted .zero (fun _ _ => 7) counting) { store := (0, {}) } (twoClients ++ thirdClient))
    (by decide +kernel)
  have hstore : ((EventLoop.run .concrete (counted .zero (fun _ _ => 7) counting)
      { store := (0, {}) } (twoClients ++ thirdClient)).bind Except.toOption).map
        (fun L => L.store.2.totalCommands) = some 3 := by
    decide +kernel
  rw [hrun] at hstore
  obtain ⟨names, order, sent, body, hserial, -, hpage⟩ :=
    page_counts_commands .zero (fun _ _ => 7) counting .concrete 0 hrun (fun _ => {}) 2000 {}
      scrapeRequest (by decide +kernel)
  exact ⟨L, names, order, sent, body, Option.some.inj hstore, hserial, hpage⟩

end RedisCache.Metrics
