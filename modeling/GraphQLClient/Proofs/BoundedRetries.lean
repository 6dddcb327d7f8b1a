import GraphQLClient.Http.Exchange
import GraphQLClient.Proofs.Outcomes

/-!
# Bounded retries

Attempts go on while they fail in a way that may pass and the policy allows for one more. The waits
between them follow the policy in order, and the last attempt gives the outcome of the request.
-/
namespace GraphQLClient.Http

open Outcome

section Attempts

variable {α : Type} {policy : RetryPolicy} {post : Nat → ClientResult α} {left first n : Nat}

/-- No attempt follows a success or a failure that stays. -/
def isFinal : ClientResult α → Bool
  | .ok _ => true
  | .error error => !error.isRetryable

/-- Attempt number `n` is the first one that no other follows, counted from zero. -/
def FirstFinal (post : Nat → ClientResult α) (n : Nat) : Prop :=
  isFinal (post n) ∧ ∀ m < n, ¬ isFinal (post m)

theorem tryFrom_spent : tryFrom policy post 0 first = ⟨1, [], post first⟩ := by
  rw [tryFrom]
  cases post first <;> rfl

theorem tryFrom_final (h : isFinal (post first)) :
    tryFrom policy post left first = ⟨1, [], post first⟩ := by
  cases left with
  | zero => exact tryFrom_spent
  | succ left =>
    rw [tryFrom]
    cases hpost : post first with
    | ok value => rfl
    | error error =>
      have hstays : error.isRetryable = false := by simpa [hpost, isFinal] using h
      simp only [hstays, Bool.false_eq_true, if_false]

theorem tryFrom_again (h : ¬ isFinal (post first)) : tryFrom policy post (left + 1) first =
    ⟨(tryFrom policy post left (first + 1)).count + 1,
      policy.backoff (first + 1) :: (tryFrom policy post left (first + 1)).waits,
      (tryFrom policy post left (first + 1)).outcome⟩ := by
  rw [tryFrom]
  cases hpost : post first with
  | ok value => exact absurd (by rw [hpost]; rfl) h
  | error error =>
    have hpasses : error.isRetryable = true := by simpa [hpost, isFinal] using h
    simp only [hpasses, if_true]

/-- Of the attempts that are left behind the first, `further` are made: none behind a final one, and
all of them if there is no final one. -/
theorem tryFrom_run (policy : RetryPolicy) (post : Nat → ClientResult α) (left first : Nat) :
    ∃ further ≤ left, tryFrom policy post left first =
        ⟨further + 1, (List.range' (first + 1) further).map policy.backoff,
          post (first + further)⟩ ∧
      (∀ n < further, ¬ isFinal (post (first + n))) ∧
      (further < left → isFinal (post (first + further))) := by
  induction left generalizing first with
  | zero => exact ⟨0, Nat.le_refl 0, tryFrom_spent, nofun, nofun⟩
  | succ left ih =>
    by_cases hfinal : isFinal (post first)
    · exact ⟨0, Nat.zero_le _, tryFrom_final hfinal, nofun, fun _ => hfinal⟩
    · obtain ⟨further, hle, hrun, hpassed, hstopped⟩ := ih (first + 1)
      have hshift : ∀ n, first + 1 + n = first + (n + 1) := by omega
      refine ⟨further + 1, Nat.succ_le_succ hle, ?_, ?_, ?_⟩
      · rw [tryFrom_again hfinal, hrun, hshift further]
        rfl
      · intro n hn
        cases n with
        | zero => exact hfinal
        | succ n =>
          rw [← hshift]
          exact hpassed n (by omega)
      · intro hlt
        rw [← hshift]
        exact hstopped (by omega)

end Attempts

section Requests

variable {explain : String → String} {policy : RetryPolicy}
  {post : Nat → ClientResult String} {n : Nat}

theorem requestWith_run (explain : String → String) (policy : RetryPolicy)
    (post : Nat → ClientResult String) :
    ∃ further ≤ policy.maxRetries, requestWith explain policy post =
        ⟨further + 1, (List.range' 1 further).map policy.backoff,
          (post further).bind (readResponse explain)⟩ ∧
      (∀ n < further, ¬ isFinal (post n)) ∧
      (further < policy.maxRetries → isFinal (post further)) := by
  obtain ⟨further, hle, hrun, hpassed, hstopped⟩ := tryFrom_run policy post policy.maxRetries 0
  simp only [Nat.zero_add] at hrun hpassed hstopped
  exact ⟨further, hle, by rw [requestWith, hrun], hpassed, hstopped⟩

theorem count_of_firstFinal (h : FirstFinal post n) :
    (requestWith explain policy post).count = min (n + 1) (policy.maxRetries + 1) := by
  obtain ⟨further, hle, hrun, hpassed, hstopped⟩ := requestWith_run explain policy post
  obtain ⟨hfinal, hbefore⟩ := h
  have hreached : further ≤ n := by
    by_contra hlt
    exact hpassed n (by omega) hfinal
  have hnoEarlier : further < n → ¬ further < policy.maxRetries :=
    fun hlt hleft => hbefore further hlt (hstopped hleft)
  rw [hrun]
  change further + 1 = _
  omega

theorem count_of_none_final (h : ∀ n, ¬ isFinal (post n)) :
    (requestWith explain policy post).count = policy.maxRetries + 1 := by
  obtain ⟨further, hle, hrun, -, hstopped⟩ := requestWith_run explain policy post
  have hall : ¬ further < policy.maxRetries := fun hlt => h further (hstopped hlt)
  rw [hrun]
  change further + 1 = _
  omega

theorem count_of_ok {text : String} (hmade : n < (requestWith explain policy post).count)
    (hok : post n = .ok text) :
    (requestWith explain policy post).count = n + 1 := by
  obtain ⟨further, -, hrun, hpassed, -⟩ := requestWith_run explain policy post
  rw [hrun] at hmade ⊢
  change n < further + 1 at hmade
  change further + 1 = n + 1
  have hnot : ¬ n < further := fun hlt => hpassed n hlt (by rw [hok]; rfl)
  omega

end Requests

/-- An attempt reads the address before it connects. -/
def attempt (url : String) (server : Nat → Connection) (n : Nat) : ClientResult String :=
  (parseUrl url).bind fun _ => (server n).result

theorem isFinal_of_parseUrl {url : String} {error : ClientError} (h : parseUrl url = .error error)
    (server : Nat → Connection) (n : Nat) : isFinal (attempt url server n) := by
  obtain ⟨fault, -, rfl⟩ := mapError_eq_error.mp h
  rw [attempt, h]
  cases fault <;> rfl

/-- A bad address fails an exchange as it would fail the first attempt. -/
theorem exchange_attempts (explain : String → String) (config : Config) (server : Nat → Connection)
    (body : RequestBody) :
    (exchange explain config server body).outcome =
      (requestWith explain config.retry (attempt config.url server)).outcome ∧
      (exchange explain config server body).requests.length ≤
        (requestWith explain config.retry (attempt config.url server)).count := by
  cases hurl : parseUrl config.url with
  | error error =>
    have hfinal : tryFrom config.retry (attempt config.url server) config.retry.maxRetries 0 =
        ⟨1, [], attempt config.url server 0⟩ := tryFrom_final (isFinal_of_parseUrl hurl server 0)
    have hfails : attempt config.url server 0 = .error error := by
      rw [attempt, hurl]
      rfl
    simp only [exchange, hurl, requestWith, hfinal, hfails]
    exact ⟨rfl, Nat.zero_le _⟩
  | ok url =>
    have hsame : attempt config.url server = fun n => (server n).result := by
      funext n
      rw [attempt, hurl]
      rfl
    simp only [exchange, hurl, hsame, List.length_map]
    refine ⟨trivial, Nat.le_trans (List.length_filter_le _ _) ?_⟩
    exact Nat.le_of_eq List.length_range

/-- A request makes its attempts up to the first that succeeds or fails for good, and at most one
more than it may retry. It waits between them as the policy says, retry by retry, and comes out as
its last attempt does. A text that is no response is not asked for again. An exchange with a server
is such a request. -/
theorem retries_bounded (explain : String → String) (policy : RetryPolicy)
    (post : Nat → ClientResult String) :
    (∀ n, FirstFinal post n → (requestWith explain policy post).count =
      min (n + 1) (policy.maxRetries + 1)) ∧
    ((∀ n, ¬ isFinal (post n)) → (requestWith explain policy post).count = policy.maxRetries + 1) ∧
    (requestWith explain policy post).waits =
      (List.range' 1 ((requestWith explain policy post).count - 1)).map policy.backoff ∧
    (requestWith explain policy post).outcome =
      (post ((requestWith explain policy post).count - 1)).bind (readResponse explain) ∧
    (∀ n text, n < (requestWith explain policy post).count → post n = .ok text →
      Response.ofText? text = none →
      (requestWith explain policy post).count = n + 1 ∧
      (requestWith explain policy post).outcome = .error (unreadable (explain text) text) ∧
      (unreadable (explain text) text).code = .invalidResponse) ∧
    ∀ config server body, config.retry = policy → attempt config.url server = post →
      (exchange explain config server body).outcome = (requestWith explain policy post).outcome ∧
      (exchange explain config server body).requests.length ≤
        (requestWith explain policy post).count := by
  have houtcome : (requestWith explain policy post).outcome =
      (post ((requestWith explain policy post).count - 1)).bind (readResponse explain) := by
    obtain ⟨further, -, hrun, -, -⟩ := requestWith_run explain policy post
    rw [hrun]
    rfl
  refine ⟨?_, ?_, ?_, houtcome, ?_, ?_⟩
  · intro n hfirst
    exact count_of_firstFinal hfirst
  · intro hnone
    exact count_of_none_final hnone
  · obtain ⟨further, -, hrun, -, -⟩ := requestWith_run explain policy post
    rw [hrun]
    rfl
  · intro n text hmade hok hunread
    have hcount := count_of_ok hmade hok
    refine ⟨hcount, ?_, rfl⟩
    rw [houtcome, hcount, Nat.add_sub_cancel, hok]
    simp only [Except.bind, readResponse, hunread]
  · rintro config server body rfl rfl
    exact exchange_attempts explain config server body

/-- Silent at first, then away, then broken off, and at last with an answer that is no response. -/
def unsteadyServer : Nat → Connection
  | 0 => .late .reading
  | 1 => .failed .connecting "Connection refused (os error 111)"
  | 2 => .failed .writing "Broken pipe (os error 32)"
  | _ => .answered (Text.Utf8.encode "HTTP/1.1 200 OK\r\n\r\nsoon".toList)

def noValue (_ : String) : String := "expected value at line 1 column 1"

def unsteadyConfig : Config :=
  { Config.ofUrl "http://localhost:4000/graphql" with retry := ⟨5, .ofMillis 100⟩ }

def pingBody : RequestBody := ⟨"query ping \x7b\n  ping\n\x7d", .object []⟩

/-- The fourth of six attempts is the last one. All six are made where no answer ever comes. -/
theorem unsteady_server_asked :
    let policy := unsteadyConfig.retry
    let post := attempt unsteadyConfig.url unsteadyServer
    let silent := attempt unsteadyConfig.url fun _ => .late .reading
    FirstFinal post 3 ∧ (requestWith noValue policy post).count = min 4 6 ∧
      (requestWith noValue policy post).waits = [.ofMillis 100, .ofMillis 200, .ofMillis 400] ∧
      post 3 = .ok "soon" ∧ Response.ofText? "soon" = none ∧
      (exchange noValue unsteadyConfig unsteadyServer pingBody).outcome =
        .error (.new .invalidResponse
          "Failed to parse response: expected value at line 1 column 1. Body: soon") ∧
      (∀ n, ¬ isFinal (silent n)) ∧ (requestWith noValue policy silent).count = 6 := by
  intro policy post silent
  have hfirst : FirstFinal post 3 := by
    constructor
    · decide +kernel
    · decide +kernel
  have hfourth : post 3 = .ok "soon" := toOption_eq_some.mp (by decide +kernel)
  have hunread : Response.ofText? "soon" = none := Option.isNone_iff_eq_none.mp (by decide +kernel)
  have hnever : ∀ n, ¬ isFinal (silent n) := by
    have hsilent : ¬ isFinal (silent 0) := by decide +kernel
    exact fun _ => hsilent
  obtain ⟨hcount, -, hwaits, -, hlast, hexchange⟩ := retries_bounded noValue policy post
  obtain ⟨-, hall, -⟩ := retries_bounded noValue policy silent
  have hmade : (requestWith noValue policy post).count = 4 := hcount 3 hfirst
  obtain ⟨-, houtcome, -⟩ := hlast 3 "soon" (by rw [hmade]; decide) hfourth hunread
  refine ⟨hfirst, hmade, ?_, hfourth, hunread, ?_, hnever, hall hnever⟩
  · rw [hwaits, hmade]
    decide
  · have hmessage : (unreadable (noValue "soon") "soon").message =
        "Failed to parse response: expected value at line 1 column 1. Body: soon" := by
        decide +kernel
    have hshown : unreadable (noValue "soon") "soon" = .new .invalidResponse _ :=
      congrArg (ClientError.new .invalidResponse) hmessage
    rw [(hexchange unsteadyConfig unsteadyServer pingBody rfl rfl).1, houtcome, hshown]

end GraphQLClient.Http
