/-
  What the parser of URLs does with a text, by the pieces that its delimiters cut.

  Each function is given by the text it is to read: a path with its query and fragment
  (`parseUrlPath_text`), a port (`parseAfterHost_text`), a host (`parseUrlAuth_host`), a scheme
  (`parseUrl_auth`). An authority is cut into an optional user, a host with or without brackets, an
  optional port and what follows; there are two kinds of text that are not cut like this, and both
  have an opening bracket: one without the closing one, and one in which something else than a port
  or a path comes behind the closing one (`authority_cases`).
-/
import Batt.Lib.Delim
import Batt.Url.Model

namespace Batt.Url

open Delim
open FromString (fromString i64)

variable {pre rest : View} {c : Char} {delims : List Char} {uninit : Int} {parse : UrlParse}
  {url host scheme : View}

/-! ## Views that are cut -/

@[simp] theorem ok_bind {α β : Type} (a : α) (f : α → Run β) :
    ((Except.ok a : Run α) >>= f) = f a := rfl

@[simp] theorem run_pure {α : Type} (a : α) : (pure a : Run α) = .ok a := rfl

theorem findFirstOf_free (h : Free delims url) : findFirstOf url delims = none :=
  findIdx?_free h

theorem findFirstOf_cut (h : Free delims pre) (hc : c ∈ delims) :
    findFirstOf (pre ++ c :: rest) delims = some pre.length :=
  findIdx?_cut h hc

@[simp] theorem substr_append (pre rest : View) :
    substr (pre ++ rest) 0 (some pre.length) = .ok pre := by
  simp [substr]

@[simp] theorem substr_behind (pre rest : View) (c : Char) :
    substr (pre ++ c :: rest) (pre.length + 1) none = .ok rest := by
  simp [substr]

@[simp] theorem viewOfData_append (pre rest : View) :
    viewOfData (pre ++ rest) pre.length = .ok pre := by
  simp [viewOfData]

@[simp] theorem removePrefix_append (pre rest : View) :
    removePrefix (pre ++ rest) pre.length = .ok rest := by
  simp [removePrefix]

@[simp] theorem removePrefix_behind (pre rest : View) (c : Char) :
    removePrefix (pre ++ c :: rest) (pre.length + 1) = .ok rest := by
  simp [removePrefix]

@[simp] theorem removePrefix_one (rest : View) (c : Char) :
    removePrefix (c :: rest) 1 = .ok rest := by
  simp [removePrefix]

@[simp] theorem charAt_cut (pre rest : View) (c : Char) :
    charAt (pre ++ c :: rest) pre.length = .ok c := by
  simp [charAt]

@[simp] theorem front_cons (rest : View) (c : Char) : front (c :: rest) = .ok c := rfl

/-! ## Path, query and fragment -/

/-- What follows an authority, with the marks of the query and the fragment. -/
structure Tail where
  path : View
  query : Option View
  fragment : Option View
deriving DecidableEq, Repr

/-- A component behind its mark, when it is there. -/
def marked (mark : Char) : Option View → View
  | none => []
  | some s => mark :: s

@[simp] theorem marked_none (mark : Char) : marked mark none = [] := rfl

@[simp] theorem marked_some (mark : Char) (s : View) : marked mark (some s) = mark :: s := rfl

def Tail.text (t : Tail) : View :=
  t.path ++ (marked '?' t.query ++ marked '#' t.fragment)

structure Tail.WF (t : Tail) : Prop where
  path : Free ['?', '#'] t.path
  query : ∀ q, t.query = some q → Free ['#'] q

/-- A parse with the components of a tail. -/
def Tail.onto (t : Tail) (parse : UrlParse) : UrlParse :=
  { parse with
    path := t.path, query := t.query.getD parse.query, fragment := t.fragment.getD parse.fragment }

theorem parseUrlQuery_text {query : View} (hq : Free ['#'] query) (fragment : Option View) :
    parseUrlQuery (query ++ marked '#' fragment) parse =
      .ok (.ok { parse with query := query, fragment := fragment.getD parse.fragment }) := by
  cases fragment with
  | none => simp [parseUrlQuery, find, findFirstOf_free hq]
  | some f =>
    have hfind : find (query ++ '#' :: f) '#' = some query.length :=
      findFirstOf_cut hq (List.mem_singleton_self _)
    simp [parseUrlQuery, hfind]

theorem parseUrlPath_text {t : Tail} (h : t.WF) :
    parseUrlPath t.text parse = .ok (.ok (t.onto parse)) := by
  obtain ⟨path, query, fragment⟩ := t
  cases query with
  | some q =>
    have hfind : findFirstOf (path ++ '?' :: (q ++ marked '#' fragment)) ['?', '#'] =
        some path.length := findFirstOf_cut h.path (by simp)
    simp [parseUrlPath, Tail.text, Tail.onto, hfind, parseUrlQuery_text (h.query q rfl)]
  | none =>
    cases fragment with
    | none => simp [parseUrlPath, Tail.text, Tail.onto, findFirstOf_free h.path]
    | some f =>
      have hfind : findFirstOf (path ++ '#' :: f) ['?', '#'] = some path.length :=
        findFirstOf_cut h.path (by simp)
      simp [parseUrlPath, Tail.text, Tail.onto, hfind]

/-- Every text is a path with a query and a fragment. -/
theorem exists_tail (url : View) : ∃ t : Tail, t.WF ∧ url = t.text := by
  rcases free_or_cut ['?', '#'] url with hfree | ⟨path, c, rest, rfl, hpath, hc⟩
  · exact ⟨⟨url, none, none⟩, ⟨hfree, by simp⟩, by simp [Tail.text]⟩
  · have hmark : c = '?' ∨ c = '#' := by simpa using hc
    rcases hmark with rfl | rfl
    · rcases free_or_cut ['#'] rest with hfree | ⟨query, c', f, rfl, hquery, hc'⟩
      · exact ⟨⟨path, some rest, none⟩, ⟨hpath, by simpa using hfree⟩, by simp [Tail.text]⟩
      · obtain rfl : c' = '#' := by simpa using hc'
        exact ⟨⟨path, some query, some f⟩, ⟨hpath, by simpa using hquery⟩, by simp [Tail.text]⟩
    · exact ⟨⟨path, none, some rest⟩, ⟨hpath, by simp⟩, by simp [Tail.text]⟩

/-! ## The port -/

/-- What the parser makes of a port, when there is one, and of what follows it. -/
def finish (uninit : Int) (port : Option View) (t : Tail) (parse : UrlParse) : StatusOr UrlParse :=
  match port with
  | none => .ok (t.onto parse)
  | some portStr =>
    match fromString i64 uninit portStr with
    | none => .error .kInvalidArgument
    | some v => .ok (t.onto { parse with port := some v })

/-- A tail behind an authority: there is none, or it begins with a path from the root. -/
def Tail.Rooted (t : Tail) : Prop :=
  t = ⟨[], none, none⟩ ∨ ∃ r, t.path = '/' :: r

theorem Tail.Rooted.text_cases {t : Tail} (h : t.Rooted) :
    t = ⟨[], none, none⟩ ∧ t.text = [] ∨ ∃ r, t.text = '/' :: r := by
  rcases h with rfl | ⟨r, hr⟩
  · exact .inl ⟨rfl, rfl⟩
  · exact .inr ⟨_, by rw [Tail.text, hr, List.cons_append]⟩

/-- Every text that begins with a slash, and the empty one, is a tail behind an authority. -/
theorem exists_rooted (h : url = [] ∨ ∃ r, url = '/' :: r) :
    ∃ t : Tail, t.WF ∧ t.Rooted ∧ url = t.text := by
  rcases h with rfl | ⟨r, rfl⟩
  · exact ⟨⟨[], none, none⟩, ⟨free_nil, by simp⟩, .inl rfl, rfl⟩
  · obtain ⟨t, ht, rfl⟩ := exists_tail r
    exact ⟨⟨'/' :: t.path, t.query, t.fragment⟩, ⟨by simpa using ht.path, ht.query⟩,
      .inr ⟨_, rfl⟩, by simp [Tail.text]⟩

theorem parseUrlPort_text {portStr : View} {t : Tail} (hport : Free ['/'] portStr) (ht : t.WF)
    (hr : t.Rooted) :
    parseUrlPort uninit (portStr ++ t.text) parse =
      .ok (finish uninit (some portStr) t parse) := by
  have hsub : substr (portStr ++ t.text) 0 (find (portStr ++ t.text) '/') = .ok portStr := by
    rcases hr.text_cases with ⟨-, h⟩ | ⟨r, h⟩
    · rw [h, List.append_nil, find, findFirstOf_free hport]
      simp [substr]
    · rw [h, find, findFirstOf_cut hport (List.mem_singleton_self _)]
      exact substr_append portStr _
  simp only [parseUrlPort, hsub, ok_bind, finish]
  cases fromString i64 uninit portStr with
  | none => rfl
  | some v => simp [parseUrlPath_text ht]

theorem parseAfterHost_text {port : Option View} {t : Tail}
    (hport : ∀ s, port = some s → Free ['/'] s) (ht : t.WF) (hr : t.Rooted) (hpath : parse.path = []) :
    parseAfterHost uninit (marked ':' port ++ t.text) parse = .ok (finish uninit port t parse) := by
  cases port with
  | some portStr => simp [parseAfterHost, parseUrlPort_text (hport portStr rfl) ht hr]
  | none =>
    rcases hr.text_cases with ⟨rfl, h⟩ | ⟨r, h⟩
    · have honto : Tail.onto ⟨[], none, none⟩ parse = parse := by
        rw [Tail.onto, ← hpath]
        rfl
      simp [parseAfterHost, h, finish, honto]
    · have hslash : parseUrlPath t.text parse = _ := parseUrlPath_text ht
      rw [h] at hslash
      simp [parseAfterHost, h, finish, hslash]

/-- Something else behind the host than a port or a path. -/
theorem parseAfterHost_other (hc : c ∉ [':', '/']) :
    parseAfterHost uninit (c :: rest) parse = .error .panic := by
  simp only [List.mem_cons, List.not_mem_nil, or_false, not_or] at hc
  simp only [parseAfterHost, front_cons, ok_bind]
  split
  · simp at *
  · split <;> simp_all [throw, throwThe, MonadExceptOf.throw]

/-- Every text behind a host is a port and a tail, or begins with something else. -/
theorem afterHost_cases (url : View) :
    (∃ (port : Option View) (t : Tail), (∀ s, port = some s → Free ['/'] s) ∧ t.WF ∧ t.Rooted ∧
      url = marked ':' port ++ t.text) ∨ ∃ c rest, url = c :: rest ∧ c ∉ [':', '/'] := by
  cases url with
  | nil =>
    obtain ⟨t, ht, hr, h⟩ := exists_rooted (.inl rfl)
    exact .inl ⟨none, t, by simp, ht, hr, h⟩
  | cons c rest =>
    by_cases hc : c ∈ [':', '/']
    · have hmark : c = ':' ∨ c = '/' := by simpa using hc
      rcases hmark with rfl | rfl
      · rcases free_or_cut ['/'] rest with hfree | ⟨portStr, c', r, rfl, hport, hc'⟩
        · obtain ⟨t, ht, hr, h⟩ := exists_rooted (.inl rfl)
          exact .inl ⟨some rest, t, by simpa using hfree, ht, hr, by simp [← h]⟩
        · obtain rfl : c' = '/' := by simpa using hc'
          obtain ⟨t, ht, hr, h⟩ := exists_rooted (.inr ⟨r, rfl⟩)
          exact .inl ⟨some portStr, t, by simpa using hport, ht, hr, by simp [← h]⟩
      · obtain ⟨t, ht, hr, h⟩ := exists_rooted (.inr ⟨rest, rfl⟩)
        exact .inl ⟨none, t, by simp, ht, hr, by simp [← h]⟩
    · exact .inr ⟨c, rest, rfl, hc⟩

/-! ## User and host -/

/-- The text of a user, with its mark. -/
def userText : Option View → View
  | none => []
  | some user => user ++ ['@']

def hostText (bracketed : Bool) (host : View) : View :=
  if bracketed then '[' :: (host ++ [']']) else host

/-- A user ends at its mark and does not begin as a host in brackets does. -/
def UserOk (user : Option View) : Prop :=
  ∀ u, user = some u → Free ['@', ':', '/'] u ∧ u.head? ≠ some '['

/-- A host in brackets ends at the closing one. Another one ends at a port or a path, and at the
mark of a user when it could be one. -/
def HostOk (user : Option View) (bracketed : Bool) (host : View) : Prop :=
  if bracketed then Free [']'] host
  else host.head? ≠ some '[' ∧ Free (if user = none then ['@', ':', '/'] else [':', '/']) host

theorem parseUrlHost_bracketed (h : Free [']'] host) :
    parseUrlHost uninit ('[' :: (host ++ ']' :: rest)) parse =
      parseAfterHost uninit rest { parse with host := host } := by
  have hfind : findFirstOf (host ++ ']' :: rest) [']'] = some host.length :=
    findFirstOf_cut h (List.mem_singleton_self _)
  simp [parseUrlHost, hfind]

theorem parseUrlHost_unclosed (h : Free [']'] rest) :
    parseUrlHost uninit ('[' :: rest) parse = .ok (.error .kInvalidArgument) := by
  simp [parseUrlHost, findFirstOf_free h]

/-- A host without brackets, with nothing, a port or a path behind it. -/
theorem parseUrlHost_plain (hhead : host.head? ≠ some '[') (hfree : Free [':', '/'] host)
    (hrest : ∀ c, rest.head? = some c → c ∈ [':', '/']) (hhost : parse.host = []) :
    parseUrlHost uninit (host ++ rest) parse =
      parseAfterHost uninit rest { parse with host := host } := by
  cases rest with
  | nil =>
    cases host with
    | nil => simp [parseUrlHost, parseAfterHost, ← hhost]
    | cons a host =>
      have ha : a ≠ '[' := by simpa using hhead
      simp [parseUrlHost, parseAfterHost, ha, findFirstOf_free hfree]
  | cons c rest =>
    have hfind : findFirstOf (host ++ c :: rest) [':', '/'] = some host.length :=
      findFirstOf_cut hfree (hrest c rfl)
    have hfront : ∃ a, front (host ++ c :: rest) = .ok a ∧ a ≠ '[' := by
      cases host with
      | nil =>
        have hc := hrest c rfl
        exact ⟨c, rfl, by rintro rfl; simp at hc⟩
      | cons a host => exact ⟨a, rfl, by simpa using hhead⟩
    obtain ⟨a, ha, hne⟩ := hfront
    simp [parseUrlHost, ha, hne, hfind]

theorem parseUrlAuth_bracket :
    parseUrlAuth uninit ('[' :: rest) parse = parseUrlHost uninit ('[' :: rest) parse := by
  simp [parseUrlAuth, andAlso]

/-- A text that does not begin with a bracket is cut at its first delimiter. -/
theorem parseUrlAuth_of_ne (h : url.head? ≠ some '[') :
    andAlso (!url.isEmpty) (do pure ((← front url) = '[')) = .ok false := by
  cases url with
  | nil => rfl
  | cons c r =>
    have hc : c ≠ '[' := by simpa using h
    simp [andAlso, hc]

theorem parseUrlAuth_user {user : View} (h : UserOk (some user)) :
    parseUrlAuth uninit (user ++ '@' :: rest) parse =
      parseUrlHost uninit rest { parse with user := user } := by
  obtain ⟨hfree, hhead⟩ := h user rfl
  have hfind : findFirstOf (user ++ '@' :: rest) ['@', ':', '/'] = some user.length :=
    findFirstOf_cut hfree (by simp)
  have hfront : (user ++ '@' :: rest).head? ≠ some '[' := by
    cases user with
    | nil => simp
    | cons a user => simpa using hhead
  simp only [parseUrlAuth, parseUrlAuth_of_ne hfront, ok_bind, hfind]
  simp

theorem parseUrlAuth_plain (hhead : host.head? ≠ some '[') (hfree : Free ['@', ':', '/'] host)
    (hrest : ∀ c, rest.head? = some c → c ∈ [':', '/']) :
    parseUrlAuth uninit (host ++ rest) { scheme := scheme } =
      parseAfterHost uninit rest { scheme := scheme, host := host } := by
  have hfront : (host ++ rest).head? ≠ some '[' := by
    cases host with
    | nil =>
      intro h
      have hc := hrest '[' h
      simp at hc
    | cons a host => simpa using hhead
  simp only [parseUrlAuth, parseUrlAuth_of_ne hfront, ok_bind]
  cases rest with
  | nil => simp [findFirstOf_free hfree, parseAfterHost]
  | cons c rest =>
    have hc : c = ':' ∨ c = '/' := by simpa using hrest c rfl
    have hfind : findFirstOf (host ++ c :: rest) ['@', ':', '/'] = some host.length :=
      findFirstOf_cut hfree (by rcases hc with rfl | rfl <;> simp)
    rw [hfind]
    rcases hc with rfl | rfl
    · simp [parseAfterHost]
    · simp [parseAfterHost]

/-- The parser comes to the end of the host with the user and the host of the text. -/
theorem parseUrlAuth_host {user : Option View} {bracketed : Bool} (hu : UserOk user)
    (hh : HostOk user bracketed host)
    (hrest : bracketed = false → ∀ c, rest.head? = some c → c ∈ [':', '/']) :
    parseUrlAuth uninit (userText user ++ (hostText bracketed host ++ rest)) { scheme := scheme } =
      parseAfterHost uninit rest { scheme := scheme, user := user.getD [], host := host } := by
  cases user with
  | some u =>
    have hsplit : userText (some u) ++ (hostText bracketed host ++ rest) =
        u ++ '@' :: (hostText bracketed host ++ rest) := by simp [userText]
    rw [hsplit, parseUrlAuth_user hu]
    cases bracketed with
    | true => simpa [hostText] using parseUrlHost_bracketed hh
    | false => exact parseUrlHost_plain hh.1 hh.2 (hrest rfl) rfl
  | none =>
    cases bracketed with
    | true =>
      have hsplit : userText none ++ (hostText true host ++ rest) = '[' :: (host ++ ']' :: rest) := by
        simp [userText, hostText]
      rw [hsplit, parseUrlAuth_bracket, parseUrlHost_bracketed hh]
      rfl
    | false => exact parseUrlAuth_plain hh.1 hh.2 (hrest rfl)

theorem parseUrlAuth_unclosed {user : Option View} (hu : UserOk user) (h : Free [']'] rest) :
    parseUrlAuth uninit (userText user ++ '[' :: rest) parse = .ok (.error .kInvalidArgument) := by
  cases user with
  | some u =>
    have hsplit : userText (some u) ++ '[' :: rest = u ++ '@' :: '[' :: rest := by simp [userText]
    rw [hsplit, parseUrlAuth_user hu, parseUrlHost_unclosed h]
  | none => exact parseUrlAuth_bracket.trans (parseUrlHost_unclosed h)

/-- A host that is cut off the front of a text, or a bracket that is not closed. -/
theorem host_cases (user : Option View) (url : View)
    (hat : user = none → url.head? ≠ some '[' → ∀ pre rest, url = pre ++ '@' :: rest →
      ¬ Free ['@', ':', '/'] pre) :
    (∃ bracketed host rest, HostOk user bracketed host ∧ url = hostText bracketed host ++ rest ∧
      (bracketed = false → ∀ c, rest.head? = some c → c ∈ [':', '/'])) ∨
    ∃ rest, url = '[' :: rest ∧ Free [']'] rest := by
  by_cases hhead : url.head? = some '['
  · obtain ⟨body, rfl⟩ : ∃ body, url = '[' :: body := by
      cases url with
      | nil => simp at hhead
      | cons c body => exact ⟨body, by simpa using hhead⟩
    rcases free_or_cut [']'] body with hfree | ⟨host, c, rest, rfl, hhost, hc⟩
    · exact .inr ⟨body, rfl, hfree⟩
    · obtain rfl : c = ']' := by simpa using hc
      exact .inl ⟨true, host, rest, hhost, by simp [hostText], by simp⟩
  · -- without a bracket the host ends at the first delimiter
    rcases free_or_cut (if user = none then ['@', ':', '/'] else [':', '/']) url with
      hfree | ⟨host, c, rest, rfl, hhost, hc⟩
    · exact .inl ⟨false, url, [], ⟨hhead, hfree⟩, by simp [hostText], by simp⟩
    · have hhd : host.head? ≠ some '[' := by
        cases host with
        | nil => simp
        | cons a host => simpa using hhead
      refine .inl ⟨false, host, c :: rest, ⟨hhd, hhost⟩, by simp [hostText], ?_⟩
      rintro - a ha
      obtain rfl : c = a := by simpa using ha
      by_cases huser : user = none
      · subst huser
        have hc' : c = '@' ∨ c = ':' ∨ c = '/' := by simpa using hc
        rcases hc' with rfl | rfl | rfl
        · exact absurd (by simpa using hhost) (hat rfl hhead host rest rfl)
        · simp
        · simp
      · simpa [huser] using hc

/-- Every text behind the scheme is a user, a host and a rest, or a bracket that is not closed. -/
theorem authority_cases (url : View) :
    (∃ user bracketed host rest, UserOk user ∧ HostOk user bracketed host ∧
      url = userText user ++ (hostText bracketed host ++ rest) ∧
      (bracketed = false → ∀ c, rest.head? = some c → c ∈ [':', '/'])) ∨
    ∃ user rest, UserOk user ∧ Free [']'] rest ∧ url = userText user ++ '[' :: rest := by
  by_cases hmark : url.head? ≠ some '[' ∧ ∃ u rest, url = u ++ '@' :: rest ∧ Free ['@', ':', '/'] u
  · obtain ⟨hhead, u, behind, rfl, hfree⟩ := hmark
    have hu : UserOk (some u) := by
      rintro u' ⟨⟩
      refine ⟨hfree, ?_⟩
      cases u with
      | nil => simp
      | cons a u => simpa using hhead
    rcases host_cases (some u) behind (by simp) with
      ⟨bracketed, host, rest, hh, rfl, hrest⟩ | ⟨rest, rfl, hfree⟩
    · exact .inl ⟨some u, bracketed, host, rest, hu, hh, by simp [userText], hrest⟩
    · exact .inr ⟨some u, rest, hu, hfree, by simp [userText]⟩
  · have hnone : UserOk none := by simp [UserOk]
    have hat : (none : Option View) = none → url.head? ≠ some '[' → ∀ pre rest,
        url = pre ++ '@' :: rest → ¬ Free ['@', ':', '/'] pre := by
      intro _ hhead pre rest heq hfree
      exact hmark ⟨hhead, pre, rest, heq, hfree⟩
    rcases host_cases none url hat with ⟨bracketed, host, rest, hh, rfl, hrest⟩ | ⟨rest, rfl, hfree⟩
    · exact .inl ⟨none, bracketed, host, rest, hnone, hh, by simp [userText], hrest⟩
    · exact .inr ⟨none, rest, hnone, hfree, by simp [userText]⟩

/-! ## The scheme -/

/-- The form `scheme://` of a URL, in which an authority follows. -/
def SchemeOk (scheme : View) : Prop :=
  Free [':'] scheme ∧ scheme.head? ≠ some '/'

theorem SchemeOk.front (h : SchemeOk scheme) :
    ∃ c, front (scheme ++ ':' :: rest) = .ok c ∧ c ≠ '/' := by
  cases scheme with
  | nil => exact ⟨':', rfl, by decide⟩
  | cons a scheme => exact ⟨a, rfl, by simpa using h.2⟩

theorem SchemeOk.find (h : SchemeOk scheme) :
    find (scheme ++ ':' :: rest) ':' = some scheme.length :=
  findFirstOf_cut h.1 (List.mem_singleton_self _)

theorem parseUrl_auth (h : SchemeOk scheme) :
    parseUrl uninit (scheme ++ ':' :: '/' :: '/' :: rest) =
      parseUrlAuth uninit rest { scheme := scheme } := by
  obtain ⟨c, hc, hne⟩ : ∃ c, front (scheme ++ ':' :: '/' :: '/' :: rest) = .ok c ∧ c ≠ '/' := h.front
  have htwo : removePrefix ('/' :: '/' :: rest) 2 = .ok rest := by
    simp [removePrefix]
  simp [parseUrl, hc, hne, h.find, andAlso, charAt, htwo]

theorem parseUrl_path (h : SchemeOk scheme) (hrest : ∀ behind, rest ≠ '/' :: '/' :: behind) :
    parseUrl uninit (scheme ++ ':' :: rest) = parseUrlPath rest { scheme := scheme } := by
  obtain ⟨c, hc, hne⟩ : ∃ c, front (scheme ++ ':' :: rest) = .ok c ∧ c ≠ '/' := h.front
  match rest, hrest with
  | [], _ => simp [parseUrl, hc, hne, h.find, andAlso]
  | [a], _ => simp [parseUrl, hc, hne, h.find, andAlso]
  | a :: b :: behind, hrest =>
    have hslash : a = '/' → b ≠ '/' := by
      rintro rfl rfl
      exact hrest behind rfl
    have hauth : andAlso ((a :: b :: behind).length > 1) (do
        andAlso ((← charAt (a :: b :: behind) 0) = '/')
          (do pure ((← charAt (a :: b :: behind) 1) = '/'))) = .ok false := by
      by_cases ha : a = '/'
      · simp [andAlso, charAt, ha, hslash ha]
      · simp [andAlso, charAt, ha]
    simp only [parseUrl, hc, ok_bind, h.find, substr_append, removePrefix_behind, hauth]
    simp [hne]

end Batt.Url
