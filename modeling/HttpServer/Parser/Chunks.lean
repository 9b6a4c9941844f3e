import HttpServer.Parser.Rows

set_option autoImplicit false

/-! # Feeding in chunks

All progress of a parse lives in `struct http_parser` and in the request it fills, so it does
not matter where a caller cuts the input (`chunking_irrelevant`). `feedOn` is the caller that
goes on after any status, also after an error: the rejected byte and the bytes behind it in its
chunk are lost, and the parser is where it was before that byte (`feedByte_steady`).
-/

namespace HttpServer

open CLib

/-! ## Cuts -/

/-- The loop over two chunks that follow each other. -/
theorem feedLoop_append {req₀ : HttpRequest} {rows : Nat}
    (hrows : rows = maxHeaders - req₀.numHeaders) (b a : List UInt8) :
    ∀ {p : HttpParser} {req : HttpRequest} {s : Scan}, Agrees req₀ p req s →
      feedLoop p req (a ++ b) =
        match feedLoop p req a with
        | .error f => .error f
        | .ok (.incomplete, p', req') => feedLoop p' req' b
        | .ok (.done, p', req') => .ok (.done, p', req')
        | .ok (.error, p', req') => .ok (.error, p', req') := by
  induction a with
  | nil => intro p req s _; rfl
  | cons c a ih =>
      intro p req s h
      have hm := feedByte_matches hrows h c
      rw [List.cons_append, feedLoop, feedLoop]
      cases hs : s.step rows c with
      | more s' =>
          rw [hs] at hm
          obtain ⟨p', req', hb, h'⟩ := hm
          rw [hb]
          exact ih h'
      | head hd =>
          rw [hs, Matches] at hm
          split at hm
          · obtain ⟨p', req', hb, _⟩ := hm
            rw [hb]
            rfl
          · obtain ⟨p', req', hb⟩ := hm
            rw [hb]
            rfl
      | reject =>
          rw [hs] at hm
          obtain ⟨p', req', hb⟩ := hm
          rw [hb]
          rfl
      | fault f =>
          rw [hs] at hm
          rw [show feedByte p req c = .error f from hm]

/-- A parser between the first byte of a head and its last one does not notice the cuts. -/
theorem feedAll_eq {req₀ : HttpRequest} {rows : Nat}
    (hrows : rows = maxHeaders - req₀.numHeaders) (chunks : List (List UInt8)) :
    ∀ {p : HttpParser} {req : HttpRequest} {s : Scan}, Agrees req₀ p req s →
      feedAll p req chunks = httpParserFeed p req chunks.flatten := by
  induction chunks with
  | nil =>
      intro p req s h
      rw [httpParserFeed, h.1]
      rfl
  | cons chunk chunks ih =>
      intro p req s h
      have hfeed : ∀ t, httpParserFeed p req t = feedLoop p req t := by
        intro t
        rw [httpParserFeed, h.1]
        rfl
      have hm := feedLoop_matches hrows chunk h
      -- the loop over all bytes first runs over those of the first chunk
      rw [feedAll, List.flatten_cons, hfeed, hfeed, feedLoop_append hrows _ chunk h]
      cases hs : s.run rows chunk with
      | more s' =>
          rw [hs] at hm
          obtain ⟨p', req', hf, h'⟩ := hm
          rw [hf]
          simp only
          rw [ih h', httpParserFeed, h'.1]
          rfl
      | head hd =>
          rw [hs, MatchesRun] at hm
          split at hm
          · obtain ⟨p', req', hf, _⟩ := hm
            rw [hf]
          · obtain ⟨p', req', hf⟩ := hm
            rw [hf]
      | reject =>
          rw [hs] at hm
          obtain ⟨p', req', hf⟩ := hm
          rw [hf]
      | fault f =>
          rw [hs] at hm
          rw [show feedLoop p req chunk = .error f from hm]

/-- `DONE` is returned with the flag set. -/
theorem httpParserFeed_done {req₀ : HttpRequest} {s : List UInt8} {p : HttpParser}
    {req : HttpRequest} (h : httpParserFeed httpParserInit req₀ s = .ok (.done, p, req)) :
    p.done = true := by
  have hm : MatchesRun req₀ (httpParserFeed httpParserInit req₀ s)
      ((Scan.method []).run (maxHeaders - req₀.numHeaders) s) :=
    httpParserFeed_matches rfl (agrees_init req₀) s
  rw [h] at hm
  cases hs : (Scan.method []).run (maxHeaders - req₀.numHeaders) s with
  | more s' =>
      rw [hs] at hm
      obtain ⟨p', req', heq, _⟩ := hm
      cases heq
  | head hd =>
      rw [hs, MatchesRun] at hm
      split at hm
      · obtain ⟨p', req', heq, hdone, _⟩ := hm
        cases heq
        exact hdone
      · obtain ⟨p', req', heq⟩ := hm
        cases heq
  | reject =>
      rw [hs] at hm
      obtain ⟨p', req', heq⟩ := hm
      cases heq
  | fault f =>
      rw [hs] at hm
      cases hm

/-- **Chunking is irrelevant.** A fresh parser fed with chunks ends as if it were fed with the
whole string at once, and after `DONE` no feed changes anything. -/
theorem chunking_irrelevant (req₀ : HttpRequest) (chunks : List (List UInt8)) :
    feedAll httpParserInit req₀ chunks = httpParserFeed httpParserInit req₀ chunks.flatten ∧
    ∀ p req, feedAll httpParserInit req₀ chunks = .ok (.done, p, req) →
      (∀ more, httpParserFeed p req more = .ok (.done, p, req)) ∧
      ∀ more, feedAll httpParserInit req₀ (chunks ++ more) = .ok (.done, p, req) ∧
        httpParserFeed httpParserInit req₀ (chunks.flatten ++ more.flatten) = .ok (.done, p, req) := by
  have hcut : ∀ cs, feedAll httpParserInit req₀ cs = httpParserFeed httpParserInit req₀ cs.flatten :=
    fun cs => feedAll_eq rfl cs (agrees_init req₀)
  refine ⟨hcut chunks, fun p req h => ?_⟩
  rw [hcut] at h
  have hmore : ∀ t, httpParserFeed httpParserInit req₀ (chunks.flatten ++ t) = .ok (.done, p, req) := by
    intro t
    have hloop : feedLoop httpParserInit req₀ chunks.flatten = .ok (.done, p, req) := h
    show feedLoop httpParserInit req₀ (chunks.flatten ++ t) = _
    rw [feedLoop_append rfl t chunks.flatten (agrees_init req₀), hloop]
  refine ⟨fun more => ?_, fun more => ⟨?_, hmore _⟩⟩
  · rw [httpParserFeed, httpParserFeed_done h]
    rfl
  · rw [hcut, List.flatten_append]
    exact hmore _

/-! ## After an error -/

/-- A rejection leaves the parser and the request as they were. -/
def Steady (p : HttpParser) (req : HttpRequest) (r : FeedStep) : Prop :=
  ∀ p' req', r = .ok (some .error, p', req') → p' = p ∧ req' = req

section Steady

variable {p : HttpParser} {req : HttpRequest}

theorem steady_error : Steady p req (ret .error p req) := by
  intro p' req' h
  cases h
  exact ⟨rfl, rfl⟩

theorem steady_of_ne {o : Option ParseStatus} (p' : HttpParser) (req' : HttpRequest)
    (h : o ≠ some .error) : Steady p req (.ok (o, p', req')) := by
  intro p'' req'' heq
  injection heq with heq
  exact absurd (congrArg Prod.fst heq) h

theorem steady_next (p' : HttpParser) (req' : HttpRequest) : Steady p req (next p' req') :=
  steady_of_ne p' req' (by decide)

theorem steady_finish (p' : HttpParser) (req' : HttpRequest) : Steady p req (finish p' req') :=
  steady_of_ne _ _ (by decide)

theorem Steady.bind {α : Type} {x : Except Fault α} {f : α → FeedStep}
    (h : ∀ a, Steady p req (f a)) : Steady p req (x >>= f) := by
  intro p' req' heq
  cases hx : x with
  | error e =>
      rw [hx] at heq
      cases heq
  | ok a =>
      rw [hx] at heq
      exact h a p' req' heq

theorem steady_endVersion : Steady p req (endVersion p req) := .bind fun _ => steady_next _ _

theorem steady_endHeader : Steady p req (endHeader p req) := .bind fun _ => steady_next _ _

/-- **An error changes nothing**, whatever the state of the parser. -/
theorem feedByte_steady (c : UInt8) : Steady p req (feedByte p req c) := by
  unfold feedByte
  cases p.state with
  | method =>
      simp only [feedMethod]
      split_ifs
      all_goals first | exact steady_error | exact .bind fun _ => steady_next _ _
  | path =>
      simp only [feedPath]
      split_ifs
      all_goals first | exact steady_error | exact .bind fun _ => steady_next _ _
  | query =>
      simp only [feedQuery]
      split_ifs
      all_goals first | exact steady_error | exact .bind fun _ => steady_next _ _
  | version =>
      simp only [feedVersion]
      split_ifs
      · exact steady_next _ _
      · exact steady_endVersion
      · exact .bind fun _ => steady_next _ _
      · exact steady_error
  | versionCr =>
      simp only [feedVersionCr]
      split_ifs
      · exact steady_endVersion
      · exact steady_error
  | headerName =>
      simp only [feedHeaderName]
      split_ifs
      · exact steady_next _ _
      · exact steady_error
      · exact steady_finish _ _
      · exact steady_error
      · exact steady_error
      · exact .bind fun _ => .bind fun _ => .bind fun _ => steady_next _ _
      · exact .bind fun _ => steady_next _ _
      · exact steady_error
  | headerNameCr =>
      simp only [feedHeaderNameCr]
      split_ifs
      · exact steady_error
      · exact steady_finish _ _
      · exact steady_error
  | headerValue =>
      simp only [feedHeaderValue]
      split_ifs
      · exact steady_next _ _
      · exact steady_endHeader
      · exact steady_next _ _
      · exact .bind fun _ => steady_next _ _
      · exact steady_error
  | headerValueCr =>
      simp only [feedHeaderValueCr]
      split_ifs
      · exact steady_endHeader
      · exact steady_error
  | done => exact steady_of_ne p req (by decide)

end Steady

/-- Feed chunks one after the other, whatever status each of them is answered with. -/
def feedOn (p : HttpParser) (req : HttpRequest) :
    List (List UInt8) → Except Fault (HttpParser × HttpRequest)
  | [] => .ok (p, req)
  | chunk :: chunks =>
      match httpParserFeed p req chunk with
      | .error f => .error f
      | .ok (_, p', req') => feedOn p' req' chunks

end HttpServer
