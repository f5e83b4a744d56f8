import TreeManifest.Prompt.Wording

/-!
# The manifest template

The form that a manifest follows, section by section. What the writer of a manifest fills in is
marked by a name in double braces.
-/

namespace TreeManifest.Prompt.Template

def identityLines : List String :=
  ["name: " ++ hole "project_name",
    "description: " ++ hole "project_description",
    "version: " ++ hole "version" ++ "  # semantic versioning",
    "status: " ++ hole "status",
    ""]

def directoriesLines : List String :=
  ["# Structure",
    "directories:  # when the directory has subdirectories",
    "  - name: /" ++ hole "directory_name",
    "    description: " ++ hole "directory_description",
    "    status: " ++ hole "status",
    "    directories:  # nested subdirectories, as needed",
    "      - name: /" ++ hole "subdirectory_name",
    "        description: " ++ hole "subdirectory_description",
    "        status: " ++ hole "status",
    ""]

def filesLines : List String :=
  ["files:  # files directly in this directory",
    "  - " ++ hole "filename" ++ ":",
    "      description: " ++ hole "file_description",
    "      status: " ++ hole "status",
    "      exports:  # exported types and functions (optional)",
    "        - " ++ hole "export_name" ++ ": " ++ hole "export_description",
    "      functions:  # function definitions (optional)",
    "        - name: " ++ hole "function_name",
    "          description: " ++ hole "function_description",
    "          params:",
    "            - name: " ++ hole "param_name",
    "              type: " ++ hole "param_type",
    "              description: " ++ hole "param_description",
    "          return:",
    "            type: " ++ hole "return_type",
    "            description: " ++ hole "return_description",
    "      types:  # type definitions (optional)",
    "        - " ++ hole "type_name" ++ ": " ++ hole "type_description",
    "      constants:  # constant definitions (optional)",
    "        - " ++ hole "constant_name" ++ ": " ++ hole "constant_description",
    ""]

def modulesLines : List String :=
  ["# Modules (optional)",
    "modules:",
    "  " ++ hole "module_name" ++ ":",
    "    description: " ++ hole "module_description",
    "    status: " ++ hole "status",
    "    platform: " ++ hole "platform_name" ++ "  # when platform specific",
    "    functions:",
    "      - " ++ hole "function_name",
    "    types:",
    "      - " ++ hole "type_name",
    "    platform_specific:  # platform specific definitions",
    "      - " ++ hole "platform_specific_item",
    ""]

def dependenciesLines : List String :=
  ["# Dependencies",
    "dependencies:",
    "  internal:  # other stc.yaml manifests this directory relies on",
    "    - path: " ++ hole "relative_path_to_stc_yaml" ++ "  # e.g. ../core/stc.yaml",
    "      name: " ++ hole "component_name" ++ "  # e.g. app-core",
    "      version: " ++ hole "version_requirement" ++ "  # e.g. ^0.1.0",
    "      description: " ++ hole "dependency_description",
    "      child_structures:  # manifests of child directories",
    "        - path: " ++ hole "child_directory" ++ "/stc.yaml",
    "          description: " ++ hole "child_component_description",
    "  external:  # third-party libraries",
    "    required:",
    "      - name: " ++ hole "dependency_name",
    "        version: " ++ hole "version_requirement",
    "        description: " ++ hole "dependency_description",
    "    optional:",
    "      - name: " ++ hole "dependency_name",
    "        version: " ++ hole "version_requirement",
    "        description: " ++ hole "dependency_description",
    "        features:  # features that need this dependency",
    "          - " ++ hole "feature_name",
    ""]

def featuresLines : List String :=
  ["# Features",
    "features:",
    "  - " ++ hole "feature_name" ++ ": " ++ hole "feature_description",
    ""]

def platformsLines : List String :=
  ["# Platform support",
    "platforms:",
    "  - " ++ hole "platform_name" ++ ": " ++ hole "platform_requirements",
    ""]

def endpointsLines : List String :=
  ["# Optional sections below",
    "api_endpoints:  # when the code exposes API endpoints",
    "  - path: " ++ hole "endpoint_path",
    "    method: " ++ hole "http_method",
    "    description: " ++ hole "endpoint_description",
    "    params:",
    "      - name: " ++ hole "param_name",
    "        type: " ++ hole "param_type",
    "        required: " ++ hole "required",
    "        description: " ++ hole "param_description",
    ""]

def schemasLines : List String :=
  ["database_schemas:  # when the code defines database schemas",
    "  - table: " ++ hole "table_name",
    "    description: " ++ hole "table_description",
    "    columns:",
    "      - name: " ++ hole "column_name",
    "        type: " ++ hole "column_type",
    "        constraints: " ++ hole "constraints",
    "        description: " ++ hole "column_description",
    ""]

def configurationsLines : List String :=
  ["configurations:  # when the code reads configuration",
    "  - key: " ++ hole "config_key",
    "    type: " ++ hole "config_type",
    "    required: " ++ hole "required",
    "    default: " ++ hole "default_value",
    "    description: " ++ hole "config_description",
    ""]

def metadataLines : List String :=
  ["# Metadata (optional)",
    "metadata:",
    "  maintainers:",
    "    - " ++ hole "maintainer_name",
    "  repository: " ++ hole "repository_url",
    "  documentation: " ++ hole "documentation_url",
    ""]

def conventionsLines : List String :=
  ["# Conventions",
    "# 1. status is one of implemented, in_progress, planned",
    "# 2. directory paths always start with /",
    "# 3. descriptions are short and concrete",
    "# 4. versions follow semantic versioning",
    "# 5. platform specific implementations are stated explicitly",
    "# 6. required and optional dependencies are listed separately",
    "# 7. API endpoints follow RESTful conventions",
    "# 8. database schemas follow normalization rules"]

def lines : List String :=
  identityLines ++ directoriesLines ++ filesLines ++ modulesLines ++ dependenciesLines ++
    featuresLines ++ platformsLines ++ endpointsLines ++ schemasLines ++ configurationsLines ++
    metadataLines ++ conventionsLines

def text : String := paragraph lines

end TreeManifest.Prompt.Template
