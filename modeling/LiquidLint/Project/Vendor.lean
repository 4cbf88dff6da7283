import LiquidLint.Text.Regex

/-!
# Vendored paths

The places where projects keep files that they did not write themselves.
-/

namespace LiquidLint
namespace Project

/-- The patterns of vendored paths, each matched anywhere in a path. -/
def vendorPatterns : List String :=
  ["(^|/)cache/", "^[Dd]ependencies/", "(^|/)dist/", "^deps/", "(^|/)configure$",
    "(^|/)config\\.guess$", "(^|/)config\\.sub$", "(^|/)aclocal\\.m4", "(^|/)libtool\\.m4",
    "(^|/)ltoptions\\.m4", "(^|/)ltsugar\\.m4", "(^|/)ltversion\\.m4", "(^|/)lt~obsolete\\.m4",
    "(^|/)dotnet-install\\.(ps1|sh)$", "(^|/)cpplint\\.py", "(^|/)node_modules/",
    "(^|/)\\.yarn/releases/", "(^|/)\\.yarn/plugins/", "(^|/)\\.yarn/sdks/",
    "(^|/)\\.yarn/versions/", "(^|/)\\.yarn/unplugged/", "(^|/)_esy$", "(^|/)bower_components/",
    "^rebar$", "(^|/)erlang\\.mk", "(^|/)Godeps/_workspace/", "(^|/)testdata/",
    "(^|/)\\.indent\\.pro", "(\\.|-)min\\.(js|css)$", "([^\\s]*)import\\.(css|less|scss|styl)$",
    "(^|/)bootstrap([^/.]*)(\\..*)?\\.(js|css|less|scss|styl)$",
    "(^|/)custom\\.bootstrap([^\\s]*)(js|css|less|scss|styl)$",
    "(^|/)font-?awesome\\.(css|less|scss|styl)$",
    "(^|/)font-?awesome/.*\\.(css|less|scss|styl)$", "(^|/)foundation\\.(css|less|scss|styl)$",
    "(^|/)normalize\\.(css|less|scss|styl)$", "(^|/)skeleton\\.(css|less|scss|styl)$",
    "(^|/)[Bb]ourbon/.*\\.(css|less|scss|styl)$", "(^|/)animate\\.(css|less|scss|styl)$",
    "(^|/)materialize\\.(css|less|scss|styl|js)$", "(^|/)select2/.*\\.(css|scss|js)$",
    "(^|/)bulma\\.(css|sass|scss)$", "(3rd|[Tt]hird)[-_]?[Pp]arty/", "(^|/)vendors?/",
    "(^|/)[Ee]xtern(als?)?/", "(^|/)[Vv]+endor/", "^debian/", "(^|/)run\\.n$",
    "(^|/)bootstrap-datepicker/", "(^|/)jquery([^.]*)\\.js$",
    "(^|/)jquery\\-\\d\\.\\d+(\\.\\d+)?\\.js$",
    "(^|/)jquery\\-ui(\\-\\d\\.\\d+(\\.\\d+)?)?(\\.\\w+)?\\.(js|css)$",
    "(^|/)jquery\\.(ui|effects)\\.([^.]*)\\.(js|css)$", "(^|/)jquery\\.fn\\.gantt\\.js",
    "(^|/)jquery\\.fancybox\\.(js|css)", "(^|/)fuelux\\.js",
    "(^|/)jquery\\.fileupload(-\\w+)?\\.js$", "(^|/)jquery\\.dataTables\\.js",
    "(^|/)bootbox\\.js", "(^|/)pdf\\.worker\\.js", "(^|/)slick\\.\\w+.js$",
    "(^|/)Leaflet\\.Coordinates-\\d+\\.\\d+\\.\\d+\\.src\\.js$", "(^|/)leaflet\\.draw-src\\.js",
    "(^|/)leaflet\\.draw\\.css", "(^|/)Control\\.FullScreen\\.css",
    "(^|/)Control\\.FullScreen\\.js", "(^|/)leaflet\\.spin\\.js", "(^|/)wicket-leaflet\\.js",
    "(^|/)\\.sublime-project", "(^|/)\\.sublime-workspace", "(^|/)\\.vscode/",
    "(^|/)prototype(.*)\\.js$", "(^|/)effects\\.js$", "(^|/)controls\\.js$",
    "(^|/)dragdrop\\.js$", "(.*?)\\.d\\.ts$",
    "(^|/)mootools([^.]*)\\d+\\.\\d+.\\d+([^.]*)\\.js$", "(^|/)dojo\\.js$",
    "(^|/)MochiKit\\.js$", "(^|/)yahoo-([^.]*)\\.js$", "(^|/)yui([^.]*)\\.js$",
    "(^|/)ckeditor\\.js$", "(^|/)tiny_mce([^.]*)\\.js$",
    "(^|/)tiny_mce/(langs|plugins|themes|utils)", "(^|/)ace-builds/",
    "(^|/)fontello(.*?)\\.css$", "(^|/)MathJax/", "(^|/)Chart\\.js$",
    "(^|/)[Cc]ode[Mm]irror/(\\d+\\.\\d+/)?(lib|mode|theme|addon|keymap|demo)",
    "(^|/)shBrush([^.]*)\\.js$", "(^|/)shCore\\.js$", "(^|/)shLegacy\\.js$",
    "(^|/)angular([^.]*)\\.js$", "(^|\\/)d3(\\.v\\d+)?([^.]*)\\.js$",
    "(^|/)react(-[^.]*)?\\.js$", "(^|/)flow-typed/.*\\.js$",
    "(^|/)modernizr\\-\\d\\.\\d+(\\.\\d+)?\\.js$", "(^|/)modernizr\\.custom\\.\\d+\\.js$",
    "(^|/)knockout-(\\d+\\.)\x7b3\x7d(debug\\.)?js$",
    "(^|/)docs?/_?(build|themes?|templates?|static)/", "(^|/)admin_media/", "(^|/)env/",
    "(^|/)fabfile\\.py$", "(^|/)waf$", "(^|/)\\.osx$", "\\.xctemplate/", "\\.imageset/",
    "(^|/)Carthage/", "(^|/)Sparkle/", "(^|/)Crashlytics\\.framework/",
    "(^|/)Fabric\\.framework/", "(^|/)BuddyBuildSDK\\.framework/", "(^|/)Realm\\.framework",
    "(^|/)RealmSwift\\.framework", "(^|/)\\.gitattributes$", "(^|/)\\.gitignore$",
    "(^|/)\\.gitmodules$", "(^|/)gradlew$", "(^|/)gradlew\\.bat$", "(^|/)gradle/wrapper/",
    "(^|/)mvnw$", "(^|/)mvnw\\.cmd$", "(^|/)\\.mvn/wrapper/", "-vsdoc\\.js$",
    "\\.intellisense\\.js$", "(^|/)jquery([^.]*)\\.validate(\\.unobtrusive)?\\.js$",
    "(^|/)jquery([^.]*)\\.unobtrusive\\-ajax\\.js$",
    "(^|/)[Mm]icrosoft([Mm]vc)?([Aa]jax|[Vv]alidation)(\\.debug)?\\.js$",
    "(^|/)[Pp]ackages\\/.+\\.\\d+\\/", "(^|/)extjs/.*?\\.js$", "(^|/)extjs/.*?\\.xml$",
    "(^|/)extjs/.*?\\.txt$", "(^|/)extjs/.*?\\.html$", "(^|/)extjs/.*?\\.properties$",
    "(^|/)extjs/\\.sencha/", "(^|/)extjs/docs/", "(^|/)extjs/builds/", "(^|/)extjs/cmd/",
    "(^|/)extjs/examples/", "(^|/)extjs/locale/", "(^|/)extjs/packages/", "(^|/)extjs/plugins/",
    "(^|/)extjs/resources/", "(^|/)extjs/src/", "(^|/)extjs/welcome/", "(^|/)html5shiv\\.js$",
    "(^|/)[Tt]ests?/fixtures/", "(^|/)[Ss]pecs?/fixtures/", "(^|/)cordova([^.]*)\\.js$",
    "(^|/)cordova\\-\\d\\.\\d(\\.\\d)?\\.js$", "(^|/)foundation(\\..*)?\\.js$",
    "(^|/)Vagrantfile$", "(^|/)\\.[Dd][Ss]_[Ss]tore$", "(^|/)inst/extdata/",
    "(^|/)octicons\\.css", "(^|/)sprockets-octicons\\.scss", "(^|/)activator$",
    "(^|/)activator\\.bat$", "(^|/)proguard\\.pro$", "(^|/)proguard-rules\\.pro$",
    "(^|/)puphpet/", "(^|/)\\.google_apis/", "(^|/)Jenkinsfile$", "(^|/)\\.gitpod\\.Dockerfile$",
    "(^|/)\\.github/", "(^|/)\\.obsidian/", "(^|/)\\.teamcity/"]

/-- The patterns as expressions. -/
def vendorRegexes : List Regex := vendorPatterns.map Regex.ofString

/-- Whether the path belongs to something vendored. -/
def isVendored (path : Text) : Bool := vendorRegexes.any (·.matchesText path)

end Project
end LiquidLint
