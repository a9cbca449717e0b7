import HaAddons.Lib.NginxLocations
import HaAddons.MarkdownRenderer.Directories
import Mathlib.Data.List.Forall2

/-!
# nginx.conf

`_render_nginx` writes the configuration of the web server: a fixed part, and for each namespace a
block of four locations.

* `renderNginx` — the text.
* `nginxDirectives` — the directives that it is to be read as.
* `run_head` — the fixed part is read so.
-/

namespace HaAddons.Markdown

open HaAddons.Lib.Nginx

/-! ## The text -/

def docrootsDir : Text := "/tmp/docroots".toList

def assetsDir : Text := "/app/_static".toList

def landingDir : Text := "/tmp/landing".toList

def line (pieces : List String) : Text := [' '].intercalate (pieces.map String.toList)

/-- The lines before the namespaces. -/
def headLines : List (List String) :=
  [["worker_processes 1;"],
    ["error_log /dev/stderr", "warn;"],
    ["pid /tmp/nginx.pid;"],
    [""],
    ["events \x7b"],
    ["  worker_connections 512;"],
    ["\x7d"],
    [""],
    ["http \x7b"],
    ["  access_log /dev/stdout", "combined;"],
    ["  client_max_body_size", "32m;"],
    ["  absolute_redirect off;"],
    [""],
    ["  # Pull in the", "distro-shipped MIME map so", ".css -> text/css and"],
    ["  # .js ->", "application/javascript.", "Without this, nginx", "searches for"],
    ["  # mime.types next to the", "main config", "(/tmp/mime.types) — does", "not"],
    ["  # exist because we run", "with `-c /tmp/nginx.conf`", "— and falls back"],
    ["  # to text/plain, which", "browsers reject under", "strict MIME checking"],
    ["  # (scripts/styles fail", "to load, Docsify stalls at", "\"Loading...\")."],
    ["  #", "``types_hash_bucket_size``", "MUST come before ``include", "mime.types`` —"],
    ["  # nginx hashes the type", "map at config-load time."],
    ["  types_hash_bucket_size", "1024;"],
    ["  include", "/etc/nginx/mime.types;"],
    ["  default_type", "application/octet-stream;"],
    [""],
    ["  # Relocate all nginx", "temp directories under", "/tmp so ``nginx -t`` works", "in"],
    ["  # non-root dev", "environments (avoids the", "default /var/lib/nginx/*", "paths"],
    ["  # that require write", "access for nginx's own", "mkdir())."],
    ["  client_body_temp_path", "/tmp/nginx-tmp/client_body;"],
    ["  proxy_temp_path       /tmp/nginx-tmp/proxy;"],
    ["  fastcgi_temp_path     /tmp/nginx-tmp/fastcgi;"],
    ["  uwsgi_temp_path       /tmp/nginx-tmp/uwsgi;"],
    ["  scgi_temp_path        /tmp/nginx-tmp/scgi;"],
    [""],
    ["  server \x7b"],
    ["    listen 8099;"],
    ["    server_name localhost;"],
    [""],
    ["    # Vendored Docsify +", "Mermaid assets. Exposed at", "/_static/ for any URL"],
    ["    # that resolves to the", "global static location", "(e.g. the landing page"],
    ["    # or any future path", "outside a configured", "namespace). Each namespace"],
    ["    # ALSO has its own", "/<ns>/_static/ location", "above (rendered by"],
    ["    #", "NGINX_NAMESPACE_BLOCK_TEMPLATE),", "so relative", "``_static/...`` hrefs"],
    ["    # in the generated", "index.html always resolve", "to a vendored asset."],
    ["    # ``Cache-Control:", "no-store`` prevents HA's", "service worker"],
    ["    # (``sw-modern.js``)", "from caching the SPA", "bootstrapper HTML under", "the"],
    ["    # same key as the", "vendored assets - that", "mix-up causes the Browser", "to"],
    ["    # serve HTML when", "requesting", "``docsify.min.js`` and", "Docsify stalls at"],
    ["    # 'Loading...'", "forever."],
    ["    location /_static/ \x7b"],
    ["      alias /app/_static/;"],
    ["      add_header", "Cache-Control \"no-store\"", "always;"],
    ["    \x7d"],
    [""],
    ["    # Landing page at", "Ingress root (lists all", "configured namespaces)"],
    ["    # Cache-Control:", "no-store so HA's service", "worker cannot poison the"],
    ["    # browser cache by", "serving the SPA HTML in", "response to vendored"],
    ["    # asset requests (e.g.", "/_static/docsify.min.js).", "See b395eae for"],
    ["    # the full trace."],
    ["    location = / \x7b"],
    ["      root /tmp/landing;"],
    ["      try_files", "/index.html =404;"],
    ["      add_header", "Cache-Control \"no-store\"", "always;"],
    ["    \x7d"],
    ["    location / \x7b"],
    ["      root /tmp/landing;"],
    ["      try_files", "/index.html =404;"],
    ["      add_header", "Cache-Control \"no-store\"", "always;"],
    ["    \x7d"]]

def head : Text := ['\n'].intercalate (headLines.map line)

def noStoreLine : Text := "      add_header Cache-Control \"no-store\" always;".toList

def redirectLines (ns : Namespace) : List Text :=
  [[], "    location = /".toList ++ ns.name ++ " \x7b return 301 /".toList ++ ns.name ++
    "/; \x7d".toList]

def staticLines (ns : Namespace) : List Text :=
  ["    location /".toList ++ ns.name ++ "/_static/ \x7b".toList,
    "      alias ".toList ++ assetsDir ++ "/;".toList, noStoreLine, "    \x7d".toList]

def docsLines (ns : Namespace) : List Text :=
  ["    location /".toList ++ ns.name ++ "/ \x7b".toList,
    "      alias ".toList ++ ns.path ++ "/;".toList,
    "      try_files $uri @docsify_".toList ++ ns.name ++ ";".toList, noStoreLine,
    "    \x7d".toList]

def fallbackLines (ns : Namespace) : List Text :=
  ["    location @docsify_".toList ++ ns.name ++ " \x7b".toList,
    "      root ".toList ++ docrootsDir ++ "/".toList ++ ns.name ++ ";".toList,
    "      try_files /index.html =404;".toList, noStoreLine, "    \x7d".toList]

/-- `NGINX_NAMESPACE_BLOCK_TEMPLATE` -/
def namespaceBlock (ns : Namespace) : Text :=
  ['\n'].intercalate (redirectLines ns ++ staticLines ns ++ docsLines ns ++ fallbackLines ns)

def renderNamespaceBlocks (namespaces : List Namespace) : Text :=
  ['\n'].intercalate (namespaces.map namespaceBlock)

def renderNginx (namespaces : List Namespace) : Text :=
  head ++ '\n' :: renderNamespaceBlocks namespaces ++ "\n  \x7d\n\x7d\n".toList

/-! ## The directives -/

/-- A directive with fixed parameters. -/
def simple (args : List String) : Directive := .simple (args.map String.toList)

def noStore : Directive := simple ["add_header", "Cache-Control", "no-store", "always"]

def redirectLocation (ns : Namespace) : Directive :=
  .block [kwLocation, ['='], '/' :: ns.name]
    [.simple ["return".toList, "301".toList, '/' :: ns.name ++ ['/']]]

def staticLocation (ns : Namespace) : Directive :=
  .block [kwLocation, '/' :: ns.name ++ "/_static/".toList]
    [.simple ["alias".toList, assetsDir ++ ['/']], noStore]

def docsLocation (ns : Namespace) : Directive :=
  .block [kwLocation, '/' :: ns.name ++ ['/']]
    [.simple ["alias".toList, ns.path ++ ['/']],
      .simple ["try_files".toList, "$uri".toList, "@docsify_".toList ++ ns.name], noStore]

def fallbackLocation (ns : Namespace) : Directive :=
  .block [kwLocation, "@docsify_".toList ++ ns.name]
    [.simple ["root".toList, docrootsDir ++ '/' :: ns.name],
      simple ["try_files", "/index.html", "=404"], noStore]

def namespaceLocations (ns : Namespace) : List Directive :=
  [redirectLocation ns, staticLocation ns, docsLocation ns, fallbackLocation ns]

def landing : List Directive :=
  [.simple ["root".toList, landingDir], simple ["try_files", "/index.html", "=404"], noStore]

/-- The locations that are there without a namespace. -/
def fixedLocations : List Directive :=
  [.block [kwLocation, "/_static/".toList] [.simple ["alias".toList, assetsDir ++ ['/']], noStore],
    .block [kwLocation, ['='], ['/']] landing, .block [kwLocation, ['/']] landing]

def serverDirectives (namespaces : List Namespace) : List Directive :=
  [simple ["listen", "8099"], simple ["server_name", "localhost"]] ++ fixedLocations ++
    namespaces.flatMap namespaceLocations

def httpDirectives : List Directive :=
  [simple ["access_log", "/dev/stdout", "combined"], simple ["client_max_body_size", "32m"],
    simple ["absolute_redirect", "off"], simple ["types_hash_bucket_size", "1024"],
    simple ["include", "/etc/nginx/mime.types"],
    simple ["default_type", "application/octet-stream"],
    simple ["client_body_temp_path", "/tmp/nginx-tmp/client_body"],
    simple ["proxy_temp_path", "/tmp/nginx-tmp/proxy"],
    simple ["fastcgi_temp_path", "/tmp/nginx-tmp/fastcgi"],
    simple ["uwsgi_temp_path", "/tmp/nginx-tmp/uwsgi"],
    simple ["scgi_temp_path", "/tmp/nginx-tmp/scgi"]]

/-- What the file is to say. -/
def nginxDirectives (namespaces : List Namespace) : List Directive :=
  [simple ["worker_processes", "1"], simple ["error_log", "/dev/stderr", "warn"],
    simple ["pid", "/tmp/nginx.pid"],
    .block ["events".toList] [simple ["worker_connections", "512"]],
    .block ["http".toList]
      (httpDirectives ++ [.block ["server".toList] (serverDirectives namespaces)])]

/-! ## The part before the namespaces -/

def headEvents : List Event :=
  eventsOf [simple ["worker_processes", "1"], simple ["error_log", "/dev/stderr", "warn"],
      simple ["pid", "/tmp/nginx.pid"],
      .block ["events".toList] [simple ["worker_connections", "512"]]] ++
    .block ["http".toList] :: (eventsOf httpDirectives ++
      .block ["server".toList] ::
        eventsOf ([simple ["listen", "8099"], simple ["server_name", "localhost"]] ++
          fixedLocations))

/-- The texts are those of the pieces. -/
def Spelled (pieces : List (List String)) (texts : List (List Text)) : Prop :=
  List.Forall₂ (List.Forall₂ fun s t => s = String.ofList t) pieces texts

theorem map_line {pieces : List (List String)} {texts : List (List Text)}
    (h : Spelled pieces texts) : pieces.map line = texts.map [' '].intercalate := by
  have hline : ∀ {ss : List String} {ts : List Text},
      List.Forall₂ (fun s t => s = String.ofList t) ss ts → ss.map String.toList = ts := by
    intro ss ts h
    induction h with
    | nil => rfl
    | cons hs _ ih => rw [List.map_cons, ih, hs, String.toList_ofList]
  induction h with
  | nil => rfl
  | cons hs _ ih => rw [List.map_cons, List.map_cons, ih, line, hline hs]

/-- The kernel reads characters; it would take its time to get them from the strings. -/
theorem run_spelled : ∃ texts, Spelled headLines texts ∧
    (run .init (['\n'].intercalate (texts.map [' '].intercalate))).map
        (fun s => (s.mode, s.args, s.out, decide (s.len < confBuffer))) =
      some (.space, [], headEvents, true) :=
  ⟨_, by repeat' constructor, by decide +kernel⟩

theorem run_head : ∃ s, run .init head = some s ∧ s.At ⟨[], headEvents⟩ := by
  obtain ⟨texts, hspelled, hrun⟩ := run_spelled
  rw [← map_line hspelled] at hrun
  obtain ⟨s, hs, heq⟩ := Option.map_eq_some_iff.mp hrun
  simp only [Prod.mk.injEq, decide_eq_true_eq] at heq
  exact ⟨s, hs, heq.1, heq.2.1, heq.2.2.1, heq.2.2.2⟩

end HaAddons.Markdown
